import BeSdk.Work.Fencing

/-!
# Marks: what stands between two sends of a non-idempotent call

`BeforeCall` marks an item before its handler sends a call that must not be sent
twice.  The mark goes with the outcome being known: the item completes, the handler
reports that the call did not take effect or that the failure is permanent, or an
operator records that the call was checked.  A claim of a marked item pauses it
instead of handing out a `Run`.

Two things the code does on purpose are not in that list.  A handler may mark several
times within one `Run`, once for each call it makes; so the statement is about marks of
two different `Run`s.  And a wait longer than `MaxWait` counts as a permanent failure.

`Careful` leaves out three ways in which a mark is lost otherwise: a `Run` handed out
by a claim that failed, `Runner.unknown` answering `false` because its read failed, and
an operator's `Hold` of a marked item, whose `Requeue` asks for nothing.

The invariant (`Marked`) is that a mark with nothing after it that settles it is still
on the row, and that only the `Run` that made it can hold the row's claim.
-/

namespace BeSdk.Work

open Runs Function List Option

variable {cfg : Config} {s s' : State} {a : Action}

/-- The outcome of the item's call is known with this entry. -/
def Entry.settles (id : String) : Entry → Bool
  | .complete id' => id' = id
  | .failed id' kind write =>
    id' = id ∧ (kind = .notEffective ∨ kind = .permanent ∨ kind = .wait ∧ write = .dead)
  | .requeued id' verified => id' = id ∧ verified
  | .mark _ _ => false

/-- Steps that lose no mark by a failed transaction, a failed read or a hold. -/
def Careful (cfg : Config) (s : State) : Action → Prop
  | .claim holder id result => HandsOutCommitted cfg s (.claim holder id result)
  | .report k cause false =>
    cause.kind = .retryable → ∀ rs it, s.runs[k]? = some rs → s.items rs.run.id = some it →
      it.effectClass = .nonIdempotentExternal → it.outcomeUnknown = false
  | .hold id =>
    ∀ it, s.items id = some it → it.effectClass = .nonIdempotentExternal → it.outcomeUnknown = false
  | _ => True

theorem Careful.handsOutCommitted (h : Careful cfg s a) : HandsOutCommitted cfg s a := by
  cases a <;> first | exact h | trivial

/-! ## Open marks -/

/-- Claim `k` marked the item, and nothing has settled it since. -/
def OpenMark (log : List Entry) (id : String) (k : Nat) : Prop :=
  ∃ pre mid, log = pre ++ .mark id k :: mid ∧ ∀ e ∈ mid, e.settles id = false

variable {log : List Entry} {id : String}

variable {e : Entry}

theorem openMark_concat {k : Nat} :
    OpenMark (log ++ [e]) id k ↔ e = .mark id k ∨ OpenMark log id k ∧ e.settles id = false := by
  constructor
  · rintro ⟨pre, mid, hlog, hmid⟩
    rcases eq_nil_or_concat mid with rfl | ⟨mid, last, rfl⟩
    · left
      exact (append_inj' hlog rfl).2 |> singleton_inj.mp
    right
    rw [concat_eq_append] at hlog hmid
    rw [← cons_append, ← append_assoc] at hlog
    obtain ⟨rfl, hlast⟩ := append_inj' hlog rfl
    obtain rfl := singleton_inj.mp hlast
    exact ⟨⟨pre, mid, rfl, fun e he => hmid e (by simp [he])⟩, hmid _ (by simp)⟩
  rintro (rfl | ⟨⟨pre, mid, rfl, hmid⟩, he⟩)
  · exact ⟨log, [], rfl, by simp⟩
  refine ⟨pre, mid ++ [e], by simp, ?_⟩
  intro e' he'
  rcases mem_append.mp he' with he' | he'
  · exact hmid e' he'
  rw [mem_singleton.mp he']
  exact he

/-- Between the item's marks of two different claims something settles the first. -/
def Separated (log : List Entry) (id : String) : Prop :=
  ∀ pre k mid j post, log = pre ++ .mark id k :: (mid ++ .mark id j :: post) → k ≠ j →
    ∃ e ∈ mid, e.settles id = true

theorem Separated.concat (h : Separated log id)
    (hmark : ∀ j k, e = .mark id j → OpenMark log id k → k = j) : Separated (log ++ [e]) id := by
  intro pre k mid j post hlog hne
  rcases eq_nil_or_concat post with rfl | ⟨post, last, rfl⟩
  · -- the second mark is the entry just written
    by_contra hopen
    rw [← cons_append, ← append_assoc] at hlog
    obtain ⟨rfl, hlast⟩ := append_inj' hlog rfl
    refine hne (hmark j k (singleton_inj.mp hlast) ⟨pre, mid, rfl, fun e' he' => ?_⟩)
    by_contra hsettles
    exact hopen ⟨e', he', by simpa using hsettles⟩
  refine h pre k mid j post ?_ hne
  rw [concat_eq_append, ← cons_append, ← append_assoc, ← cons_append, ← append_assoc] at hlog
  simpa using (append_inj' hlog rfl).1

/-! ## The invariant -/

/-- Whether the write takes the mark off the row. -/
def FailWrite.clears : FailWrite → Bool
  | .dead | .retry => true
  | .wait | .paused => false

variable {now : Nat} {r : Run} {cause : Cause} {it : Item}

theorem FailWrite.set_outcomeUnknown {w : FailWrite} (hclears : w.clears = false) :
    (w.set now r cause it).outcomeUnknown = it.outcomeUnknown := by
  cases w <;> first | rfl | simp [FailWrite.clears] at hclears

/-- The write that `fail` is about to make takes a mark off only with an entry that
settles it. -/
def FailsSafely (s : State) : Prop :=
  ∀ (k : Nat) (r : Run) (cause : Cause) (w : FailWrite) (it : Item),
    s.runs[k]? = some ⟨r, .failing cause w⟩ → s.items r.id = some it →
    it.effectClass = .nonIdempotentExternal → it.outcomeUnknown = true →
    it.state = .running → it.epoch = r.epoch → w.clears = true →
    (Entry.failed r.id cause.kind w).settles r.id = true

/-- One row, with the history and the row's latest claim. -/
structure Item.Marked (id : String) (it : Item) (log : List Entry) (latest : Option Nat) :
    Prop where
  paused : it.outcomeUnknown = true → it.state = .paused → it.pauseReason = some .outcomeUnknown
  opened : ∀ k, OpenMark log id k → it.outcomeUnknown = true ∧ (latest = some k ∨ latest = none)
  separated : Separated log id

structure Marked (s : State) : Prop where
  rows : ∀ id it, s.items id = some it → it.effectClass = .nonIdempotentExternal →
    it.Marked id s.log (s.latest id)
  logged : ∀ id k, .mark id k ∈ s.log → ∃ it, s.items id = some it

theorem OpenMark.mem {k : Nat} (h : OpenMark log id k) : .mark id k ∈ log := by
  obtain ⟨pre, mid, rfl, -⟩ := h
  simp

variable {latest : Option Nat}

theorem Item.Marked.concat (h : it.Marked id log latest) (hmark : ∀ j, e ≠ .mark id j) :
    it.Marked id (log ++ [e]) latest where
  paused := h.paused
  opened k hopen := by
    rcases openMark_concat.mp hopen with heq | ⟨hopen, -⟩
    · exact absurd heq (hmark k)
    exact h.opened k hopen
  separated := h.separated.concat fun j _ heq => absurd heq (hmark j)

/-- A row rewritten with at most one entry in the history, which marks no other row. -/
theorem Marked.update (h : Marked s) {it' : Item} {entries : List Entry}
    (hitem : s.items id = some it) (hkeeps : it.Keeps it')
    (hitems : s'.items = update s.items id (some it')) (hlog : s'.log = s.log ++ entries)
    (hone : entries = [] ∨ ∃ e, entries = [e] ∧ ∀ id' j, e = .mark id' j → id' = id)
    (hlatest : ∀ id', id' ≠ id → s'.latest id' = s.latest id')
    (hrow : it.effectClass = .nonIdempotentExternal → it.Marked id s.log (s.latest id) →
      it'.Marked id s'.log (s'.latest id)) : Marked s' := by
  constructor
  · intro id' row hrow' heffect
    rw [hitems] at hrow'
    by_cases heq : id' = id
    · subst heq
      rw [update_self, some.injEq] at hrow'
      subst hrow'
      have heffect' := hkeeps.effectClass.symm.trans heffect
      exact hrow heffect' (h.rows id' it hitem heffect')
    rw [update_of_ne heq] at hrow'
    have hold := h.rows id' row hrow' heffect
    rw [hlatest id' heq, hlog]
    rcases hone with rfl | ⟨e, rfl, he⟩
    · rwa [append_nil]
    exact hold.concat fun j hej => heq (he id' j hej)
  intro id' k hmem
  rw [hitems]
  by_cases heq : id' = id
  · exact ⟨it', by rw [heq, update_self]⟩
  rw [update_of_ne heq]
  refine h.logged id' k ?_
  rw [hlog] at hmem
  rcases hone with rfl | ⟨e, rfl, he⟩
  · simpa using hmem
  rcases mem_append.mp hmem with hmem | hmem
  · exact hmem
  exact absurd (he id' k (mem_singleton.mp hmem).symm) heq

/-! ## Failing -/

/-- A row rewritten so that a failing run's claim still held only if it did before. -/
theorem FailsSafely.update (h : FailsSafely s) {it' : Item}
    (hitem : s.items id = some it) (hkeeps : it.Keeps it')
    (hitems : s'.items = update s.items id (some it')) (hfailing : KeepsFailing s s')
    (hrow : ∀ (k : Nat) (r : Run) (cause : Cause) (w : FailWrite),
      s.runs[k]? = some ⟨r, .failing cause w⟩ → r.id = id → it'.outcomeUnknown = true →
      it'.state = .running → it'.epoch = r.epoch →
      it.outcomeUnknown = true ∧ it.state = .running ∧ it.epoch = r.epoch) : FailsSafely s' := by
  intro k r cause w row hrun hrow' heffect hmark hrunning hepoch hclears
  obtain ⟨r', hrun', hkey⟩ := hfailing k r cause w hrun
  obtain ⟨hid, hre⟩ := Run.eq_of_key hkey
  rw [hitems] at hrow'
  rw [← hid] at hrow' ⊢
  rw [← hre] at hepoch
  by_cases heq : r'.id = id
  · rw [heq, update_self, some.injEq] at hrow'
    subst hrow'
    obtain ⟨hmark, hrunning, hepoch⟩ := hrow k r' cause w hrun' heq hmark hrunning hepoch
    exact h k r' cause w it hrun' (heq ▸ hitem) (hkeeps.effectClass.symm.trans heffect) hmark
      hrunning hepoch hclears
  rw [update_of_ne heq] at hrow'
  exact h k r' cause w row hrun' hrow' heffect hmark hrunning hepoch hclears

/-- What `fail` decides on a marked row whose mark it could read. -/
theorem failWith_settles {readOk : Bool} (heffect : r.job.effect = .nonIdempotentExternal)
    (hmark : it.outcomeUnknown = true) (hread : cause.kind = .retryable → readOk = true)
    (hclears : (failWith now r cause readOk (some it)).clears = true) :
    (Entry.failed r.id cause.kind (failWith now r cause readOk (some it))).settles r.id = true := by
  cases hkind : cause.kind with
  | wait =>
    have hdead : failWith now r cause readOk (some it) = .dead := by
      revert hclears
      simp only [failWith, hkind, if_true]
      split <;> simp [FailWrite.clears]
    simp [Entry.settles, hdead]
  | permanent => simp [Entry.settles]
  | notEffective => simp [Entry.settles]
  | retryable =>
    have hpaused : failWith now r cause readOk (some it) = .paused := by
      simp [failWith, hkind, heffect, unknown, hread hkind, hmark]
    simp [hpaused, FailWrite.clears] at hclears

theorem failsSafely_step (hissued : Issued cfg s) (hlatest : Latest s) (h : FailsSafely s)
    (hok : Careful cfg s a) (hstep : step cfg s a = some s') : FailsSafely s' := by
  cases step_moves hstep with
  | quiet hitems _ _ _ hfailing =>
    intro k r cause w it hrun hit
    obtain ⟨r', hrun', hkey⟩ := hfailing k r cause w hrun
    obtain ⟨hid, hre⟩ := Run.eq_of_key hkey
    rw [hitems, ← hid] at hit
    rw [← hid, ← hre]
    exact h k r' cause w it hrun' hit
  | added hnone hfresh =>
    rename_i it
    intro k r cause w row hrun hrow
    replace hrun : s.runs[k]? = some ⟨r, .failing cause w⟩ := hrun
    obtain ⟨old, hold, -⟩ := hissued.of_run hrun
    have hne : r.id ≠ it.id := fun heq => by simp [heq, hnone] at hold
    simp only [State.put, update_of_ne hne] at hrow
    exact h k r cause w row hrun hrow
  | claimed hitem hjob hclaim =>
    rename_i holder id result it job
    obtain rfl : it.id = id := hissued.key id it hitem
    have hfailing : KeepsFailing s (s.claim cfg holder job it result) := by
      intro k r cause w hrun
      simp only [State.claim] at hrun
      rw [getElem?_append] at hrun
      split at hrun
      · exact ⟨r, hrun, rfl⟩
      have hmem := mem_of_getElem? hrun
      simp at hmem
    cases hres : result.applied with
    | false =>
      refine h.update hitem ⟨rfl, rfl, rfl, rfl⟩ ?_ hfailing
        fun _ _ _ _ _ _ hmark hrunning hepoch => ⟨hmark, hrunning, hepoch⟩
      rw [← hitem, update_eq_self]
      simp [State.claim, hres]
    | true =>
      refine h.update hitem (claim_keeps s.now cfg.lease s.epoch holder job it)
        (by simp [State.claim, hres]) hfailing fun k r cause w hrun hid _ _ hepoch => ?_
      -- the claim moved the row past every claim before it
      have hle : r.epoch ≤ it.epoch := (hlatest.of_run hrun (hid ▸ hitem)).1
      rw [claim_epoch] at hepoch
      omega
  | wrote hrun hallows hitem hguard hkey =>
    rename_i k rs w result it r'
    refine h.update hitem (Write.keeps_set ..) rfl ?_ ?_
    · refine keepsFailing_setRun ?_
      rcases write_next w rs.phase with hover | hsame
      · exact .inl hover
      exact .inr ⟨rs.run, by rw [hsame]; exact hrun, hkey.symm⟩
    intro j r cause w' hfail hid hmark hrunning hepoch
    -- the writer holds the latest claim, so the failing run is the writer
    obtain ⟨-, hrun', hepoch', -, -⟩ := guard_iff.mp hguard
    rw [Write.set_epoch] at hepoch
    have hj : s.latest r.id = some j := (hlatest.of_run hfail (hid ▸ hitem)).2 hepoch.symm
    have hk := (hlatest.of_run hrun hitem).2 hepoch'.symm
    obtain rfl : j = k := by
      rw [hid, hk] at hj
      simpa using hj.symm
    obtain rfl : rs = ⟨r, .failing cause w'⟩ := by
      rw [hrun] at hfail
      simpa using hfail
    obtain rfl : w = .renew := by cases w <;> simp_all [Phase.allows]
    exact ⟨hmark, hrunning, hepoch⟩
  | reported hrun =>
    rename_i k r cause readOk
    intro j r' cause' w' it hrun' hit heffect hmark hrunning hepoch hclears
    by_cases hj : k = j
    · subst hj
      obtain ⟨hk, -⟩ := List.getElem?_eq_some_iff.mp hrun
      simp only [State.setRun, getElem?_set, hk, if_true, some.injEq,
        RunState.mk.injEq, Phase.failing.injEq] at hrun'
      obtain ⟨rfl, rfl, rfl⟩ := hrun'
      replace hit : s.items r.id = some it := hit
      obtain ⟨old, hold, -, hjob⟩ := hissued.of_run hrun
      obtain rfl : old = it := by
        rw [hit] at hold
        simpa using hold.symm
      rw [hit] at hclears ⊢
      refine failWith_settles (hjob ▸ heffect) hmark (fun hkind => ?_) hclears
      cases readOk with
      | true => rfl
      | false =>
        have := hok hkind ⟨r, .handling⟩ old hrun hit heffect
        simp [hmark] at this
    simp only [State.setRun, getElem?_set_ne hj] at hrun'
    exact h j r' cause' w' it hrun' hit heffect hmark hrunning hepoch hclears
  | settled hrun hitem hguard =>
    rename_i k r cause w result it
    refine h.update hitem (FailWrite.keeps_set ..) rfl (keepsFailing_setRun (.inl rfl)) ?_
    intro _ _ _ _ _ _ _ hrunning
    cases w <;> simp [FailWrite.set] at hrunning
  | operated hitem hop hs' =>
    subst hs'
    refine h.update hitem hop.keeps rfl (fun _ r _ _ hrun => ⟨r, hrun, rfl⟩) ?_
    intro _ _ _ _ _ _ _ hrunning
    cases hop <;> simp [Item.requeued, Item.resolve, Item.held] at hrunning

/-! ## One step -/

/-- A claim of a row with an open mark pauses it and leaves it without a claim. -/
theorem Item.Marked.claim {holder : String} {lease : Nat} {current : Epoch} {job : Job} {n : Nat}
    (h : it.Marked id log latest) (heffect : it.effectClass = .nonIdempotentExternal) :
    (claim now lease current holder job it).1.Marked id log
      ((claim now lease current holder job it).2.map fun _ => n) := by
  cases hmark : it.outcomeUnknown with
  | true =>
    have hclaim : Work.claim now lease current holder job it =
        ((it.claimed now lease current holder).pausedUnknown, none) := by
      simp [Work.claim, Item.claimed, heffect, hmark]
    rw [hclaim]
    exact ⟨fun _ _ => rfl, fun _ _ => ⟨hmark, .inr rfl⟩, h.separated⟩
  | false =>
    refine ⟨fun hcontra => ?_, fun k hopen => ?_, h.separated⟩
    · simp [claim_unmarked, hmark] at hcontra
    simp [(h.opened k hopen).1] at hmark

/-- A write of the `Run` that holds the row's claim. -/
theorem Item.Marked.write {lease k : Nat}
    (w : Write) (h : it.Marked id log (some k)) (hrunning : it.state = .running) :
    (w.set now lease r it).Marked id (log ++ w.entries id k) (some k) := by
  cases w with
  | complete op =>
    have hdone : (Write.set now lease r (.complete op) it).state ≠ .paused := by
      dsimp only [Write.set]
      split <;> simp
    refine ⟨fun _ hpaused => absurd hpaused hdone, fun j hopen => ?_, h.separated.concat (by simp)⟩
    rcases openMark_concat.mp hopen with heq | ⟨-, hsettles⟩
    · simp at heq
    simp [Entry.settles] at hsettles
  | beforeCall =>
    refine ⟨fun _ hpaused => by simp [Write.set, hrunning] at hpaused,
      fun j hopen => ⟨rfl, ?_⟩, h.separated.concat ?_⟩
    · rcases openMark_concat.mp hopen with heq | ⟨hopen, -⟩
      · simp only [Entry.mark.injEq, true_and] at heq
        exact .inl (by rw [heq])
      exact (h.opened j hopen).2
    intro j i heq hopen
    simp only [Entry.mark.injEq, true_and] at heq
    simpa [heq, eq_comm] using (h.opened i hopen).2
  | _ =>
    refine ⟨fun _ hpaused => ?_, ?_, ?_⟩
    · simp [Write.set, hrunning] at hpaused
    · simpa [Write.entries, Write.set] using h.opened
    simpa [Write.entries] using h.separated

theorem Item.Marked.settle {w : FailWrite} (h : it.Marked id log latest)
    (hsafe : it.outcomeUnknown = true → w.clears = true →
      (Entry.failed id cause.kind w).settles id = true) :
    (w.set now r cause it).Marked id (log ++ [.failed id cause.kind w]) latest := by
  refine ⟨?_, fun j hopen => ?_, h.separated.concat (by simp)⟩
  · cases w <;> simp [FailWrite.set]
  rcases openMark_concat.mp hopen with heq | ⟨hopen, hsettles⟩
  · simp at heq
  obtain ⟨hmark, hlatest⟩ := h.opened j hopen
  have hclears : w.clears = false := by
    by_contra hclears
    simp [hsafe hmark (by simpa using hclears)] at hsettles
  exact ⟨by rw [FailWrite.set_outcomeUnknown hclears, hmark], hlatest⟩

/-- An operator's action on a row that is not marked and held at once. -/
theorem Item.Marked.operated {it' : Item} {entries : List Entry} (h : it.Marked id log latest)
    (hop : Operated id now it a it' entries) (hheld : a = .hold id → it.outcomeUnknown = false) :
    it'.Marked id (log ++ entries) latest := by
  cases hop with
  | requeued verified hok =>
    refine ⟨fun hmark => by simp [Item.requeued] at hmark, fun j hopen => ?_,
      h.separated.concat (by simp)⟩
    rcases openMark_concat.mp hopen with heq | ⟨hopen, hsettles⟩
    · simp at heq
    -- a marked row is requeued only from its pause for the unknown outcome, verified
    have hmark := (h.opened j hopen).1
    have hverified : verified = true := by
      have hpaused := h.paused hmark
      simp only [Item.requeueable, decide_eq_true_eq] at hok
      rcases hok with ⟨-, hno⟩ | ⟨hp, hreason⟩ | ⟨-, -, hv⟩
      · exact absurd hmark hno
      · simp [hpaused hp] at hreason
      exact hv
    simp [Entry.settles, hverified] at hsettles
  | resolved reason hok =>
    rw [append_nil]
    exact ⟨fun _ hpaused => by simp [Item.resolve] at hpaused, h.opened, h.separated⟩
  | held hok =>
    rw [append_nil]
    have hmark := hheld rfl
    exact ⟨fun hcontra => by simp [Item.held, hmark] at hcontra, h.opened, h.separated⟩

theorem marked_step (hissued : Issued cfg s) (hlatest : Latest s) (hsafe : FailsSafely s)
    (h : Marked s) (hok : Careful cfg s a) (hstep : step cfg s a = some s') : Marked s' := by
  cases step_moves hstep with
  | quiet hitems hlatest hlog _ _ =>
    exact ⟨by rw [hitems, hlog, hlatest]; exact h.rows, by rw [hitems, hlog]; exact h.logged⟩
  | added hnone hfresh =>
    rename_i it
    have hunlogged : ∀ k, .mark it.id k ∉ s.log := fun k hmem => by
      obtain ⟨row, hrow⟩ := h.logged it.id k hmem
      simp [hnone] at hrow
    constructor
    · intro id row hrow heffect
      by_cases heq : id = it.id
      · subst heq
        simp only [State.put, update_self, some.injEq] at hrow
        subst hrow
        refine ⟨fun hmark => by simp [hfresh.unmarked] at hmark, ?_, ?_⟩
        · exact fun k hopen => absurd hopen.mem (hunlogged k)
        rintro pre k mid j post hlog -
        exact absurd (by rw [show s.log = _ from hlog]; simp) (hunlogged k)
      simp only [State.put, update_of_ne heq] at hrow
      exact h.rows id row hrow heffect
    intro id k hmem
    obtain ⟨row, hrow⟩ := h.logged id k hmem
    have hne : id ≠ it.id := fun heq => by simp [heq, hnone] at hrow
    exact ⟨row, by simp [State.put, update_of_ne hne, hrow]⟩
  | claimed hitem hjob hclaim =>
    rename_i holder id result it job
    obtain rfl : it.id = id := hissued.key id it hitem
    cases hres : result.applied with
    | false => exact ⟨by simpa [State.claim, hres] using h.rows,
        by simpa [State.claim, hres] using h.logged⟩
    | true =>
      refine h.update hitem (claim_keeps s.now cfg.lease s.epoch holder job it)
        (by simp [State.claim, hres]) (append_nil _).symm (.inl rfl) ?_ ?_
      · intro id' hne
        simp [State.claim, hres, update_of_ne hne]
      intro heffect hrow
      simpa [State.claim, hres] using hrow.claim heffect
  | wrote hrun hallows hitem hguard hkey =>
    rename_i k rs w result it r'
    obtain ⟨-, hrunning, hepoch, -, -⟩ := guard_iff.mp hguard
    have hclaim := (hlatest.of_run hrun hitem).2 hepoch.symm
    refine h.update hitem (Write.keeps_set ..) rfl rfl ?_ (fun _ _ => rfl) ?_
    · cases w <;> simp [Write.entries]
    intro _ hrow
    change Item.Marked rs.run.id _ (s.log ++ w.entries rs.run.id k) (s.latest rs.run.id)
    rw [hclaim] at hrow ⊢
    exact hrow.write w hrunning
  | reported hrun => exact ⟨h.rows, h.logged⟩
  | settled hrun hitem hguard =>
    rename_i k r cause w result it
    obtain ⟨-, hrunning, hepoch, -, -⟩ := guard_iff.mp hguard
    refine h.update hitem (FailWrite.keeps_set ..) rfl rfl (.inr ⟨_, rfl, by simp⟩)
      (fun _ _ => rfl) fun heffect hrow => hrow.settle fun hmark hclears => ?_
    exact hsafe k r cause w it hrun hitem heffect hmark hrunning hepoch hclears
  | operated hitem hop hs' =>
    subst hs'
    refine h.update hitem hop.keeps rfl rfl ?_ (fun _ _ => rfl) ?_
    · cases hop <;> simp
    intro heffect hrow
    refine hrow.operated hop fun ha => ?_
    subst ha
    exact hok _ hitem heffect

/-! ## Whole runs -/

theorem marked_run {epoch : Epoch} {as : List Action}
    (hmeets : Meets (step cfg) (Careful cfg) (init epoch) as)
    (hrun : run (step cfg) (init epoch) as = some s) : Marked s := by
  have hinit : Issued cfg (init epoch) ∧ Latest (init epoch) ∧ FailsSafely (init epoch) ∧
      Marked (init epoch) := by
    refine ⟨issued_init epoch, latest_init epoch, fun _ _ _ _ _ h => ?_, ?_⟩
    · simp [init] at h
    exact ⟨fun _ _ h => by simp [init] at h, fun _ _ h => by simp [init] at h⟩
  refine (run_invariant (P := fun s => Issued cfg s ∧ Latest s ∧ FailsSafely s ∧ Marked s)
    ?_ hinit hmeets hrun).2.2.2
  rintro s a s' ⟨hissued, hlatest, hsafe, hmarked⟩ hok hstep
  exact ⟨issued_step hissued hstep, latest_step hissued hlatest hok.handsOutCommitted hstep,
    failsSafely_step hissued hlatest hsafe hok hstep,
    marked_step hissued hlatest hsafe hmarked hok hstep⟩

/-- **Marks.**  Between two marks that different claims of a non-idempotent item committed,
the item completed, the handler's failure was reported as not effective, permanent or a
wait past its limit, or an operator requeued it as verified. -/
theorem settled_between_marks (cfg : Config) (epoch : Epoch) (as : List Action) (s : State)
    (hrun : run (step cfg) (init epoch) as = some s)
    (hmeets : Meets (step cfg) (Careful cfg) (init epoch) as) (id : String) (it : Item)
    (hitem : s.items id = some it) (heffect : it.effectClass = .nonIdempotentExternal)
    (pre mid post : List Entry) (j k : Nat)
    (hlog : s.log = pre ++ .mark id j :: (mid ++ .mark id k :: post)) (hne : j ≠ k) :
    ∃ e ∈ mid, e.settles id = true :=
  ((marked_run hmeets hrun).rows id it hitem heffect).separated pre j mid k post hlog hne

/-- A configuration with one queue job whose call must not be sent twice and whose waits
end after an hour. -/
def payConfig : Config :=
  { jobs := fun name =>
      if name = "pay" then
        some { name := "pay", kind := .queue, effect := .nonIdempotentExternal,
               maxAttempts := 3, maxWait := 3600000000, interval := 0 }
      else none
    lease := 30000000 }

/-- The first claim's call is refused, the second claim marks again. -/
def payRefused : List Action :=
  [.enqueue "x" "pay" "" 0, .claim "a" "x" .committed, .write 0 .beforeCall .committed,
    .report 0 ⟨.notEffective, "refused"⟩ true, .settle 0 .committed, .tick 1000000,
    .claim "a" "x" .committed, .write 1 .beforeCall .committed]

theorem settled_between_marks_refused :
    ∃ s it, run (step payConfig) (init ⟨1, 1⟩) payRefused = some s ∧ s.items "x" = some it ∧
      it.effectClass = .nonIdempotentExternal ∧
      s.log = [.mark "x" 0, .failed "x" .notEffective .retry, .mark "x" 1] ∧
      ∃ e ∈ [Entry.failed "x" .notEffective .retry], e.settles "x" = true := by
  refine ⟨_, _, rfl, rfl, rfl, by decide, ?_⟩
  refine settled_between_marks payConfig ⟨1, 1⟩ payRefused _ rfl ?_ "x" _ rfl rfl [] _ [] 0 1
    (by decide) (by decide)
  simp [payRefused, Meets, Careful, HandsOutCommitted]

/-- What the history of one run shows: two calls marked in one `Run`, and a wait past its
limit after a call was marked, requeued without any check. -/
theorem marks_without_settling :
    (∃ s, run (step payConfig) (init ⟨1, 1⟩)
        [.enqueue "x" "pay" "" 0, .claim "a" "x" .committed, .write 0 .beforeCall .committed,
          .write 0 .beforeCall .committed] = some s ∧
      s.log = [.mark "x" 0, .mark "x" 0]) ∧
    ∃ s, run (step payConfig) (init ⟨1, 1⟩)
        [.enqueue "x" "pay" "" 0, .claim "a" "x" .committed, .report 0 ⟨.wait, "closed"⟩ true,
          .settle 0 .committed, .tick 3600000001, .claim "a" "x" .committed,
          .write 1 .beforeCall .committed, .report 1 ⟨.wait, "closed"⟩ true,
          .settle 1 .committed, .requeue "x" false, .claim "a" "x" .committed,
          .write 2 .beforeCall .committed] = some s ∧
      s.log = [.failed "x" .wait .wait, .mark "x" 1, .failed "x" .wait .dead,
        .requeued "x" false, .mark "x" 2] :=
  ⟨⟨_, rfl, by decide⟩, ⟨_, rfl, by decide⟩⟩

end BeSdk.Work
