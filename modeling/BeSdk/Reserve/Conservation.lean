import BeSdk.Reserve.Participant

/-!
# Nothing is taken twice, and nothing is lost

What the account of a branch has to do with the branch's state (`Account.Fits`), in every state that
any transactions lead to: nothing was taken for a branch that is not stored, rejected or cancelled;
what a held or committed one has not consumed it holds; an ended one holds nothing.  Conservation
and the two "at most once" are read off that.

Only a commit changes a branch or its account.  The transaction has owned the branch's row since it
read it, so what it decided on is what is stored; `TxOk` keeps that for every transaction that is
under way, and `apply_writes` is the table: whatever it decides for a branch, its new state fits its
new account, and an ended state stays.
-/

namespace BeSdk.Reserve

open Runs Function Option

variable {A : Type*} [AddCommGroup A]

/-! ## Accounts that fit a state -/

def Account.Fits (a : Account A) : BranchState → Prop
  | .absent | .rejected | .cancelled => a = {}
  | .held => a.takes = 1 ∧ a.giveBacks = 0 ∧ a.consumed = 0 ∧ a.givenBack = 0 ∧ a.taken = a.holds
  | .committed => a.takes = 1 ∧ a.giveBacks = 0 ∧ a.givenBack = 0 ∧ a.taken = a.consumed + a.holds
  | .consumed =>
    a.takes = 1 ∧ a.giveBacks = 0 ∧ a.givenBack = 0 ∧ a.taken = a.consumed ∧ a.holds = 0
  | .released | .expired =>
    a.takes = 1 ∧ a.giveBacks = 1 ∧ a.taken = a.consumed + a.givenBack ∧ a.holds = 0

namespace Account.Fits

variable {a : Account A} {st : BranchState}

theorem conserved (h : a.Fits st) :
    a.taken = a.consumed + a.givenBack + a.holds ∧ a.takes ≤ 1 ∧ a.giveBacks ≤ 1 := by
  cases st <;> simp only [Fits] at h
  case held => simp [h]
  case committed => simp [h]
  case consumed => simp [h]
  case released => simp [h]
  case expired => simp [h]
  all_goals simp [h]

theorem holds_eq_zero (h : a.Fits st) (hended : st.ended = true) : a.holds = 0 := by
  cases st <;> simp only [Fits] at h <;> simp_all [BranchState.ended]

/-- The hold of a new branch that takes its content. -/
theorem take (content : A) : (({} : Account A).take content).Fits .held := by
  simp [Fits, Account.take]

theorem use (h : a.Fits .committed) (amount : A) : (a.use amount).Fits .committed := by
  obtain ⟨htakes, hbacks, hback, htaken⟩ := h
  refine ⟨htakes, hbacks, hback, ?_⟩
  simp only [Account.use, htaken]
  abel

/-- What a held or committed branch has not consumed is what it holds. -/
theorem giveBack (h : a.Fits .held ∨ a.Fits .committed) :
    a.giveBack.Fits .released ∧ a.giveBack.Fits .expired := by
  have hall : a.giveBack.takes = 1 ∧ a.giveBack.giveBacks = 1 ∧
      a.giveBack.taken = a.giveBack.consumed + a.giveBack.givenBack ∧ a.giveBack.holds = 0 := by
    rcases h with ⟨htakes, hbacks, hconsumed, hback, htaken⟩ | ⟨htakes, hbacks, hback, htaken⟩
    · simp [Account.giveBack, htakes, hbacks, hconsumed, hback, htaken]
    refine ⟨htakes, by simp [Account.giveBack, hbacks], ?_, ?_⟩
    · simp [Account.giveBack, hback]
    simp [Account.giveBack, htaken]
  exact ⟨hall, hall⟩

end Account.Fits

namespace Participant

/-! ## What a transaction will write -/

def stateOf (b : Option Branch) : BranchState := (b.map (·.state)).getD .absent

/-- A write that keeps accounts and states together, and leaves ended states alone. -/
def Writes (old : Option Branch) (b : Branch) (account : Account A) : Prop :=
  account.Fits b.state ∧ ∀ b₀, old = some b₀ → b₀.state.ended = true → b.state = b₀.state

variable {b : Branch}

/-- The commands that `apply` carries out under the lock. -/
theorem apply_writes {account : Account A} {c : Command} (past : Bool)
    (h : account.Fits b.state) (hc : c = .confirm ∨ c = .cancel ∨ c = .expire) (now : Int)
    (records : Bool) : ∃ b' account' answer, apply now b account (b.state.decide past c) records =
      .ready (some (b', account')) records answer ∧ Writes (some b) b' account' := by
  have hsame : ∀ b' : Branch, b'.state = b.state → ∀ account' : Account A,
      account'.Fits b.state → Writes (some b) b' account' := by
    rintro b' hb' account' hfits
    refine ⟨hb' ▸ hfits, fun b₀ hb₀ _ => ?_⟩
    obtain rfl := some.inj hb₀
    exact hb'
  have hlive : ∀ to_ : BranchState, b.state.ended = false → ∀ account' : Account A,
      account'.Fits to_ → Writes (some b) (b.move now to_) account' := by
    rintro to_ hended account' hfits
    refine ⟨hfits, fun b₀ hb₀ hb => ?_⟩
    obtain rfl := some.inj hb₀
    rw [hended] at hb
    cases hb
  dsimp only [apply]
  by_cases hchanged : (b.state.decide past c).changed = true
  · rw [if_pos hchanged]
    refine ⟨_, _, _, rfl, ?_⟩
    -- the changing cells of the table
    rcases hc with rfl | rfl | rfl
    · by_cases hheld : b.state = .held
      · rw [hheld] at h
        cases past with
        | false =>
          refine hlive _ (by simp [hheld, BranchState.ended]) _ ?_
          obtain ⟨htakes, hbacks, hconsumed, hback, htaken⟩ := h
          simp [hheld, BranchState.decide, Account.Fits, htakes, hbacks, hconsumed, hback, htaken]
        | true =>
          refine hlive _ (by simp [hheld, BranchState.ended]) _ ?_
          simpa [hheld, BranchState.decide] using (Account.Fits.giveBack (.inl h)).2
      simp [BranchState.decide, hheld] at hchanged
    · cases hstate : b.state <;> rw [hstate] at h hchanged <;>
        simp [BranchState.decide] at hchanged
      · refine hlive _ (by simp [hstate, BranchState.ended]) _ ?_
        simpa [BranchState.decide] using (Account.Fits.giveBack (.inl h)).1
      · refine hlive _ (by simp [hstate, BranchState.ended]) _ ?_
        simpa [BranchState.decide] using (Account.Fits.giveBack (.inr h)).1
      refine hlive _ (by simp [hstate, BranchState.ended]) _ ?_
      simpa [BranchState.decide, Account.Fits] using h
    by_cases hdue : b.state = .held ∧ past = true
    · rw [hdue.1] at h
      refine hlive _ (by simp [hdue.1, BranchState.ended]) _ ?_
      simpa [hdue.1, hdue.2, BranchState.decide] using (Account.Fits.giveBack (.inl h)).2
    simp [BranchState.decide, hdue] at hchanged
  rw [if_neg hchanged]
  refine ⟨_, _, _, rfl, hsame b rfl _ ?_⟩
  rw [Bool.not_eq_true] at hchanged
  rw [(decide_unchanged hchanged).2]
  exact h

variable {cfg : Config} {s s' : Participant A}

/-- What a transaction under way knows of its branch. -/
def TxOk (cfg : Config) (s : Participant A) (f : Nat) (tx : Tx A) : Prop :=
  match tx.at_ with
  | .inserted => s.owner (key cfg tx) = some f ∧ s.branches (key cfg tx) = none
  | .holding b =>
    s.owner (key cfg tx) = some f ∧ s.branches (key cfg tx) = some b ∧ b.state = .committed
  | .took b account d =>
    s.owner (key cfg tx) = some f ∧ s.branches (key cfg tx) = some b ∧ b.state = .committed ∧
      d.changed = true ∧ d.resource = .consumes ∧ account.Fits d.to_
  | .ready (some (b, account)) _ _ =>
    s.owner (key cfg tx) = some f ∧ Writes (s.branches (key cfg tx)) b account
  | _ => True

structure Inv (cfg : Config) (s : Participant A) : Prop where
  rows : ∀ k, (s.accounts k).Fits (stateOf (s.branches k))
  txs : ∀ f tx, s.txs f = some tx → TxOk cfg s f tx

/-- Nothing was taken for a branch that is not stored. -/
theorem Inv.account_eq_zero (h : Inv cfg s) {k : String} (hnone : s.branches k = none) :
    s.accounts k = {} := by
  have hfits := h.rows k
  rw [hnone] at hfits
  exact hfits

variable {f : Nat} {tx : Tx A}

/-- It depends on the row of its branch only, and only while it owns it. -/
theorem TxOk.congr (h : TxOk cfg s f tx)
    (hsame : s.owner (key cfg tx) = some f → s'.owner (key cfg tx) = some f ∧
      s'.branches (key cfg tx) = s.branches (key cfg tx)) : TxOk cfg s' f tx := by
  cases hat : tx.at_ with
  | inserted =>
    simp only [TxOk, hat] at h ⊢
    obtain ⟨howner, hrow⟩ := h
    exact ⟨(hsame howner).1, (hsame howner).2.trans hrow⟩
  | holding b | took b account d =>
    simp only [TxOk, hat] at h ⊢
    obtain ⟨howner, hrow, hrest⟩ := h
    exact ⟨(hsame howner).1, (hsame howner).2.trans hrow, hrest⟩
  | ready write records answer =>
    cases write with
    | none => simp only [TxOk, hat]
    | some write =>
      simp only [TxOk, hat] at h ⊢
      obtain ⟨howner, hwrites⟩ := h
      exact ⟨(hsame howner).1, (hsame howner).2 ▸ hwrites⟩
  | _ => simp only [TxOk, hat]

theorem txs_update {g : Nat} {new : Option (Tx A)} (h : update s.txs f new g = some tx) :
    g ≠ f ∧ s.txs g = some tx ∨ g = f ∧ new = some tx := by
  by_cases heq : g = f
  · subst heq
    exact .inr ⟨rfl, by simpa using h⟩
  exact .inl ⟨heq, by simpa [update_of_ne heq] using h⟩

variable {at_ : Place A}

theorem Inv.goTo (h : Inv cfg s)
    (hok : TxOk cfg s f { tx with at_ := at_ }) : Inv cfg (s.goTo f tx at_) where
  rows := h.rows
  txs g tx' htx := by
    rcases txs_update htx with ⟨-, hold⟩ | ⟨rfl, hnew⟩
    · exact h.txs g tx' hold
    obtain rfl := some.inj hnew
    exact hok

/-- A transaction that takes the row of its branch, which nobody owns, and goes on. -/
theorem Inv.goToOwn (h : Inv cfg s) (hfree : s.owner (key cfg tx) = none)
    (hok : TxOk cfg (s.own f (key cfg tx)) f { tx with at_ := at_ }) :
    Inv cfg ((s.goTo f tx at_).own f (key cfg tx)) where
  rows := h.rows
  txs g tx' htx := by
    rcases txs_update htx with ⟨-, hold⟩ | ⟨rfl, hnew⟩
    · refine (h.txs g tx' hold).congr fun howner => ?_
      have hne : key cfg tx' ≠ key cfg tx := by
        intro heq
        rw [heq, hfree] at howner
        cases howner
      exact ⟨by simpa [own, Participant.goTo, update_of_ne hne] using howner, rfl⟩
    obtain rfl := some.inj hnew
    exact hok

theorem Inv.release (h : Inv cfg s) (f : Nat) : Inv cfg (s.release f) where
  rows := h.rows
  txs g tx htx := by
    rcases txs_update htx with ⟨hne, hold⟩ | ⟨-, hnew⟩
    · refine (h.txs g tx hold).congr fun howner => ⟨?_, rfl⟩
      simp [Participant.release, howner, hne]
    cases hnew

variable (cfg s) in
theorem written_rows (tx : Tx A) (write : Option (Branch × Account A)) (records : Bool) :
    (s.written cfg tx write records).owner = s.owner ∧
      (s.written cfg tx write records).txs = s.txs ∧
      match write with
      | some (b, account) => (s.written cfg tx write records).branches =
          update s.branches (key cfg tx) (some b) ∧
        (s.written cfg tx write records).accounts = update s.accounts (key cfg tx) account
      | none => (s.written cfg tx write records).branches = s.branches ∧
          (s.written cfg tx write records).accounts = s.accounts := by
  unfold written
  cases write <;> dsimp only <;> split <;> exact ⟨rfl, rfl, rfl, rfl⟩

theorem Inv.written (h : Inv cfg s) {write : Option (Branch × Account A)} {records : Bool}
    {answer : Answer} (htx : s.txs f = some tx) (hat : tx.at_ = .ready write records answer) :
    Inv cfg ((s.written cfg tx write records).release f) := by
  obtain ⟨howner, htxs, hrows⟩ := written_rows cfg s tx write records
  cases write with
  | none =>
    have hsame : Inv cfg (s.written cfg tx none records) := by
      refine ⟨fun k => ?_, fun g tx' htx' => ?_⟩
      · rw [hrows.1, hrows.2]
        exact h.rows k
      rw [htxs] at htx'
      exact (h.txs g tx' htx').congr fun hown => ⟨by rw [howner, hown], by rw [hrows.1]⟩
    exact hsame.release f
  | some write =>
    obtain ⟨b, account⟩ := write
    obtain ⟨hmine, hwrites⟩ : s.owner (key cfg tx) = some f ∧
        Writes (s.branches (key cfg tx)) b account := by
      have := h.txs f tx htx
      rwa [TxOk, hat] at this
    constructor
    · intro k
      change ((s.written cfg tx (some (b, account)) records).accounts k).Fits
        (stateOf ((s.written cfg tx (some (b, account)) records).branches k))
      rw [hrows.1, hrows.2]
      by_cases heq : k = key cfg tx
      · subst heq
        simpa [stateOf] using hwrites.1
      simpa [update_of_ne heq] using h.rows k
    intro g tx' htx'
    rcases txs_update (s := s.written cfg tx (some (b, account)) records) htx' with
      ⟨hne, hold⟩ | ⟨-, hnew⟩
    · rw [htxs] at hold
      refine (h.txs g tx' hold).congr fun hown => ?_
      have hkey : key cfg tx' ≠ key cfg tx := by
        intro heq
        rw [heq, hmine, some.injEq] at hown
        exact hne hown.symm
      refine ⟨?_, ?_⟩
      · simp [Participant.release, howner, hown, hne]
      change (s.written cfg tx (some (b, account)) records).branches (key cfg tx') = _
      rw [hrows.1, update_of_ne hkey]
    cases hnew

/-! ## Steps -/

theorem Inv.insert (h : Inv cfg s) (hstep : s.insert cfg f tx at_ = some s')
    (hok : s.branches (key cfg tx) = none →
      TxOk cfg (s.own f (key cfg tx)) f { tx with at_ := at_ }) : Inv cfg s' := by
  unfold Participant.insert at hstep
  split at hstep
  · cases hstep
    exact h.goTo trivial
  next hnone hfree =>
    cases hstep
    exact h.goToOwn hfree (hok hnone)
  cases hstep

variable {kind digest : String} {now : Int}

theorem taken_ok (h : Inv cfg s) {id : String} {content : A}
    (htx : s.txs f = some ⟨.hold kind id digest content, now, .inserted⟩) (enough : Bool)
    (reason : String) :
    TxOk cfg s f { call := .hold kind id digest content, now := now, at_ := (taken cfg
      ⟨.hold kind id digest content, now, .inserted⟩ kind digest content
      (s.accounts (cfg.canon id)) enough reason) } := by
  obtain ⟨hmine, hnone⟩ := h.txs f _ htx
  refine ⟨hmine, ?_, fun b₀ hb₀ => ?_⟩
  · have hzero : s.accounts (cfg.canon id) = {} := h.account_eq_zero hnone
    cases enough with
    | false => simpa [BranchState.decide, Account.Fits] using hzero
    | true =>
      rw [hzero]
      simpa [BranchState.decide] using Account.Fits.take content
  exact absurd (hnone.symm.trans hb₀) (by simp)

theorem locked_ok (h : Inv cfg s) {call : Call A} (hrow : s.branches (cfg.canon call.id) = some b) :
    TxOk cfg (s.own f (cfg.canon call.id)) f { call := call, now := now, at_ := (locked
      ⟨call, now, .seen⟩ b (s.accounts (cfg.canon call.id))) } := by
  have hfits : (s.accounts (cfg.canon call.id)).Fits b.state := by
    have := h.rows (cfg.canon call.id)
    rwa [hrow] at this
  have hmine : (s.own f (cfg.canon call.id)).owner (cfg.canon call.id) = some f := by simp [own]
  have happly : ∀ c : Command, c = .confirm ∨ c = .cancel ∨ c = .expire →
      TxOk cfg (s.own f (cfg.canon call.id)) f { call := call, now := now, at_ := (apply now b
        (s.accounts (cfg.canon call.id)) (b.state.decide (b.past now) c) false) } := by
    intro c hc
    obtain ⟨b', account', answer, heq, hwrites⟩ := apply_writes (b.past now) hfits hc now false
    rw [heq]
    rw [← hrow] at hwrites
    exact ⟨hmine, hwrites⟩
  cases call with
  | hold kind id digest content => trivial
  | confirm kind id => exact happly _ (.inl rfl)
  | cancel kind id => exact happly _ (.inr (.inl rfl))
  | expire kind id => exact happly _ (.inr (.inr rfl))
  | consume kind id consumption digest amount =>
    unfold locked
    dsimp only
    split
    · trivial
    rename_i hrefused
    refine ⟨hmine, hrow, ?_⟩
    by_contra hnot
    by_cases habsent : b.state = .absent <;> simp [BranchState.decide, habsent, hnot] at hrefused

theorem Inv.record (h : Inv cfg s) {id consumption : String} {amount : A}
    {account : Account A} {d : Decision}
    (htx : s.txs f = some ⟨.consume kind id consumption digest amount, now, .took b account d⟩)
    (hstep : s.record f ⟨.consume kind id consumption digest amount, now, .took b account d⟩
      consumption b account d = some s') : Inv cfg s' := by
  obtain ⟨hmine, hrow, hstate, hchanged, hresource, hfits⟩ := h.txs f _ htx
  unfold Participant.record at hstep
  split at hstep
  · cases hstep
    exact h.goTo trivial
  split at hstep <;> cases hstep
  have hgo : Inv cfg (s.goTo f ⟨.consume kind id consumption digest amount, now,
      .took b account d⟩ (apply now b account d true)) := by
    refine h.goTo ?_
    simp only [apply, hchanged, hresource, if_true]
    refine ⟨hmine, hfits, fun b₀ hb₀ hended => ?_⟩
    obtain rfl := some.inj (hrow.symm.trans hb₀)
    simp [hstate, BranchState.ended] at hended
  exact ⟨hgo.rows, fun g tx' htx' => (hgo.txs g tx' htx').congr fun hown => ⟨hown, rfl⟩⟩

theorem inv_init (cfg : Config) : Inv cfg (init A) where
  rows _ := rfl
  txs f tx htx := by simp [init] at htx

variable [DecidableEq A]

theorem used_of_committed (hstate : b.state = .committed) (tx : Tx A) (amount : A)
    (account : Account A) (beyond : Bool) : used tx amount b account beyond =
      if beyond then .ready none false { branch := some b, refused := some .beyondRemaining }
      else .took b (account.use amount)
        { to_ := if (account.use amount).holds = 0 then .consumed else .committed
          resource := .consumes, changed := true } := by
  by_cases hleft : (account.use amount).holds = 0 <;> cases beyond <;>
    simp [used, hstate, BranchState.decide, hleft]

theorem used_ok (h : Inv cfg s) {id consumption : String} {amount : A}
    (htx : s.txs f = some ⟨.consume kind id consumption digest amount, now, .holding b⟩)
    (beyond : Bool) :
    TxOk cfg s f { call := .consume kind id consumption digest amount, now := now, at_ := (used
      ⟨.consume kind id consumption digest amount, now, .holding b⟩ amount b
      (s.accounts (cfg.canon id)) beyond) } := by
  obtain ⟨hmine, hrow, hstate⟩ := h.txs f _ htx
  have hfits : (s.accounts (cfg.canon id)).Fits .committed := by
    have := h.rows (cfg.canon id)
    rw [show s.branches (cfg.canon id) = some b from hrow] at this
    simpa [stateOf, hstate] using this
  have hused := hfits.use amount
  rw [used_of_committed hstate]
  cases beyond with
  | true => trivial
  | false =>
    refine ⟨hmine, hrow, hstate, rfl, rfl, ?_⟩
    dsimp only
    split
    · -- nothing is left: the branch is consumed
      rename_i hleft
      obtain ⟨htakes, hbacks, hback, htaken⟩ := hused
      rw [hleft, add_zero] at htaken
      exact ⟨htakes, hbacks, hback, htaken, hleft⟩
    exact hused

variable {a : Action A}

theorem inv_step (h : Inv cfg s) (hstep : step cfg s a = some s') : Inv cfg s' := by
  cases a with simp only [step] at hstep
  | «begin» f call now =>
    split at hstep <;> cases hstep
    have hok : TxOk cfg s f { ({ call := call, now := now } : Tx A) with at_ := .start } :=
      trivial
    exact h.goTo hok
  | insert f =>
    split at hstep
    · refine h.insert hstep fun hnone => ⟨?_, hnone⟩
      simp [own, key]
    · refine h.insert hstep fun hnone => ⟨by simp [own, key], ?_, fun b₀ hb₀ => ?_⟩
      · exact h.account_eq_zero hnone
      exact absurd (hnone.symm.trans hb₀) (by simp)
    cases hstep
  | readThere f =>
    split at hstep
    · split at hstep <;> cases hstep
      rename_i hfree
      refine h.goToOwn hfree ?_
      unfold readThere
      split <;> trivial
    cases hstep
  | take f enough reason =>
    split at hstep <;> cases hstep
    rename_i htx
    exact h.goTo (taken_ok h htx enough reason)
  | check f =>
    split at hstep
    · split at hstep <;>
      · cases hstep
        exact h.goTo trivial
    cases hstep
  | readUsed f =>
    split at hstep <;> cases hstep
    refine h.goTo ?_
    unfold readUsed
    split
    · split <;> trivial
    trivial
  | look f =>
    split at hstep
    next tx htx =>
      have hlook : TxOk cfg s f { tx with at_ := look tx (s.branches (key cfg tx)) } := by
        unfold look
        split
        · split <;> trivial
        split <;> trivial
      split at hstep <;> cases hstep
      exact h.goTo hlook
    cases hstep
  | lock f =>
    split at hstep
    · split at hstep <;> cases hstep
      rename_i hrow hfree
      exact h.goToOwn hfree (locked_ok h hrow)
    cases hstep
  | use f beyond =>
    split at hstep <;> cases hstep
    rename_i htx
    exact h.goTo (used_ok h htx beyond)
  | record f =>
    split at hstep
    next htx =>
      exact h.record htx hstep
    cases hstep
  | commit f =>
    split at hstep <;> cases hstep
    rename_i htx
    have hwritten := h.written htx rfl
    exact ⟨hwritten.rows, hwritten.txs⟩
  | rollback f =>
    split at hstep
    · cases hstep
      exact ⟨(h.release f).rows, (h.release f).txs⟩
    · cases hstep
      exact h.release f
    cases hstep

theorem step_branches (hstep : step cfg s a = some s') :
    s'.branches = s.branches ∨ ∃ f tx write records answer, s.txs f = some tx ∧
      tx.at_ = .ready write records answer ∧
      s'.branches = (s.written cfg tx write records).branches := by
  cases a with
  | commit f =>
    simp only [step] at hstep
    split at hstep <;> cases hstep
    rename_i htx
    exact .inr ⟨f, _, _, _, _, htx, rfl, rfl⟩
  | _ =>
    simp only [step, Participant.insert, Participant.record] at hstep
    left
    repeat' split at hstep
    all_goals cases hstep
    all_goals rfl

theorem step_ended (h : Inv cfg s) (hstep : step cfg s a = some s') {k : String}
    {st : BranchState} (hended : st.ended = true) (hst : stateOf (s.branches k) = st) :
    stateOf (s'.branches k) = st := by
  rcases step_branches hstep with hsame | ⟨f, tx, write, records, answer, htx, hat, hwritten⟩
  · rw [hsame, hst]
  obtain ⟨-, -, hrows⟩ := written_rows cfg s tx write records
  rw [hwritten]
  cases write with
  | none => rw [hrows.1, hst]
  | some write =>
    obtain ⟨b, account⟩ := write
    rw [hrows.1]
    by_cases hk : k = key cfg tx
    · have hok := h.txs f tx htx
      rw [TxOk, hat] at hok
      subst hk
      rw [update_self]
      cases hrow : s.branches (key cfg tx) with
      | none =>
        rw [hrow] at hst
        subst hst
        simp [stateOf, BranchState.ended] at hended
      | some b₀ =>
        rw [hrow] at hst
        subst hst
        exact hok.2.2 b₀ hrow hended
    rw [update_of_ne hk, hst]

/-- **Reservations are conserved.**  After every run of transactions, for every branch what was
taken is what was consumed, given back and is still held; it was taken at most once and given back
at most once, and an ended branch holds nothing.  Whatever follows, an ended branch keeps its
state, and a cancelled one never has anything taken for it. -/
theorem reservations_conserved (cfg : Config) (as : List (Action A)) (s : Participant A)
    (hrun : run (step cfg) (init A) as = some s) :
    (∀ k, (s.accounts k).taken =
        (s.accounts k).consumed + (s.accounts k).givenBack + (s.accounts k).holds ∧
      (s.accounts k).takes ≤ 1 ∧ (s.accounts k).giveBacks ≤ 1 ∧
      ∀ b, s.branches k = some b → b.state.ended = true → (s.accounts k).holds = 0) ∧
    ∀ bs s', run (step cfg) s bs = some s' → ∀ k b, s.branches k = some b →
      b.state.ended = true → (∃ b', s'.branches k = some b' ∧ b'.state = b.state) ∧
        (b.state = .cancelled → (s'.accounts k).takes = 0 ∧ (s'.accounts k).taken = 0) := by
  have hinv : Inv cfg s := run_invariant_of_step (fun _ _ _ h => inv_step h) (inv_init cfg) hrun
  constructor
  · intro k
    obtain ⟨hsum, htakes, hbacks⟩ := (hinv.rows k).conserved
    refine ⟨hsum, htakes, hbacks, fun b hb hended => ?_⟩
    have hfits := hinv.rows k
    rw [hb] at hfits
    exact hfits.holds_eq_zero hended
  intro bs s' hrun' k b hb hended
  have hkept : Inv cfg s' ∧ stateOf (s'.branches k) = b.state :=
    run_invariant_of_step (P := fun t => Inv cfg t ∧ stateOf (t.branches k) = b.state)
      (fun _ _ _ h hstep => ⟨inv_step h.1 hstep, step_ended h.1 hstep hended h.2⟩)
      ⟨hinv, by rw [hb]; rfl⟩ hrun'
  constructor
  · cases hb' : s'.branches k with
    | none =>
      have habsent : BranchState.absent = b.state := by simpa [hb', stateOf] using hkept.2
      simp [← habsent, BranchState.ended] at hended
    | some b' => exact ⟨b', rfl, by simpa [hb', stateOf] using hkept.2⟩
  intro hcancelled
  have hfits := hkept.1.rows k
  rw [hkept.2, hcancelled] at hfits
  have hzero : s'.accounts k = {} := hfits
  simp [hzero]

/-- A hold, the same hold again, a confirm, a consumption and a cancel of one branch. -/
def partConsumed : List (Action Int) :=
  [.begin 0 (.hold "stock" "b" "d" 10) 0, .insert 0, .take 0 true "", .commit 0,
    .begin 0 (.hold "stock" "b" "d" 10) 1, .insert 0, .readThere 0, .commit 0,
    .begin 0 (.confirm "stock" "b") 2, .look 0, .lock 0, .commit 0,
    .begin 0 (.consume "stock" "b" "c" "e" 4) 3, .check 0, .look 0, .lock 0, .use 0 false,
    .record 0, .commit 0,
    .begin 0 (.cancel "stock" "b") 4, .insert 0, .look 0, .lock 0, .commit 0]

/-- Ten are taken once, four of them consumed and the rest given back. -/
theorem reservations_conserved_part_consumed :
    ∃ s, run (step ⟨fun _ => 300, fun id => id⟩) (init Int) partConsumed = some s ∧
      (s.accounts "b").taken = 10 ∧ (s.accounts "b").consumed = 4 ∧
      (s.accounts "b").taken =
        (s.accounts "b").consumed + (s.accounts "b").givenBack + (s.accounts "b").holds := by
  refine ⟨?s, ?hrun, ?htaken, ?hconsumed, ((reservations_conserved _ _ ?s ?hrun).1 "b").1⟩
  case hrun | htaken | hconsumed => rfl

end Participant
end BeSdk.Reserve
