import BeSdk.Authz.Revisions

/-!
# How long a view is valid

A lookup may use a shard for a while after the request that renewed it was sent: `W_read` for
ordinary operations, `W_high` for high-risk ones, which count from the last renewal that was not
read-only. `Member` is a holder with its boot clock and the verification under way; its log has the
renewals, the answers that were rollbacks, and the moments every shard was dropped.

What a shard's fields say about its past is `HeldOk`: `sentAt` is the last renewal in the log,
`highAt` the last one that was not read-only, of this shard or one it replaced, and a shard that is
not suspended has seen no rollback since its last renewal. Every step keeps this for every shard,
and a lookup reads its answer off it (`lookup_spec`).
-/

namespace BeSdk.Authz

open Runs List Option

/-! ## The log -/

structure Renewal where
  shard : String
  view : Shard
  sent : Int
  readOnly : Bool
  -- The shard was held before: it was kept, or replaced by this one.
  continues : Bool

inductive HolderEvent where
  | renewed (r : Renewal)
  | rolledBack
  | dropped

namespace Holder

variable (h : Holder)

/-- The renewal that one shard of an accepted answer makes. -/
def renewal (newer : Bool) (sent : Int) (a : ShardAnswer) : Option Renewal :=
  match a.status, h.shards.lookup a.shard, a.view.map (fitting · h.defs) with
  | .unchanged, some s, _ =>
    if s.stopped then none else some ⟨a.shard, s.shard, sent, a.readOnly, true⟩
  | .changed, some s, some v =>
    if s.stopped then none
    else if newer = false ∧ revisionsGoBack s.shard.securityRevisions v.securityRevisions then
      none
    else some ⟨a.shard, v, sent, a.readOnly, true⟩
  | .changed, none, some v => some ⟨a.shard, v, sent, a.readOnly, false⟩
  | _, _, _ => none

def renewals (newer : Bool) (sent : Int) : Holder → List ShardAnswer → List HolderEvent
  | _, [] => []
  | h, a :: shards =>
    (h.renewal newer sent a).toList.map .renewed ++
      renewals newer sent (h.applyShard newer sent a).1 shards

def events (nonce : String) (ans : VerifyAnswer) (sent : Int) : List HolderEvent :=
  if ans.nonce ≠ nonce then []
  else
    match parseInt64 ans.recoveryGeneration.value with
    | none => []
    | some gen =>
      if h.hasRecovery = true ∧ gen < h.recovery ∨ h.foreign ans = true then [.rolledBack]
      else
        (if h.newer gen then [.dropped] else []) ++
          renewals (h.newer gen) sent
            { h with shards := if h.newer gen then ∅ else h.shards, recovery := gen,
                     hasRecovery := true, «instance» := ans.instance } ans.shards

end Holder

/-- A member with its boot clock; `request` is the verification under way, its nonce and the reading
when it was sent. -/
structure Member where
  holder : Holder
  clock : Int
  request : Option (String × Int)
  log : List HolderEvent

inductive MemberAction where
  | advance (d : Nat)
  | send (nonce : String)
  | answer (ans : VerifyAnswer)
  | lost
  | rest (wall : Int)
  | tick (wall : Int)

/-- The verifications of a member are one after the other; an answer may be lost, and one that
arrives is applied, discarded or refused as `Holder.verify` says. -/
def memberStep (s : Member) : MemberAction → Option Member
  | .advance d => some { s with clock := s.clock + d }
  | .send nonce =>
    if s.request.isNone then some { s with request := some (nonce, s.clock) } else none
  | .answer ans =>
    s.request.map fun (nonce, sent) =>
      { s with
        holder := (s.holder.verify nonce ans sent).1
        request := none
        log := s.log ++ s.holder.events nonce ans sent }
  | .lost => s.request.map fun _ => { s with request := none }
  | .rest wall => some { s with holder := s.holder.rest s.clock wall }
  | .tick wall =>
    some { s with
      holder := s.holder.tick s.clock wall
      log := s.log ++ if s.holder.stalled s.clock wall then [.dropped] else [] }

def Member.init (defs : Option Definitions) (clock : Int) : Member where
  holder := { defs := defs, shards := ∅ }
  clock := clock
  request := none
  log := []

/-! ## What a shard's fields say about its past -/

/-- The log has the renewal, and since then no shard was dropped and this one renewed only as
`again` says. -/
def RenewedAt (log : List HolderEvent) (r : Renewal) (again : Renewal → Prop)
    (since : List HolderEvent) : Prop :=
  (∃ before, log = before ++ .renewed r :: since) ∧ (∀ e ∈ since, e ≠ .dropped) ∧
    ∀ r', .renewed r' ∈ since → r'.shard = r.shard → again r'

/-- A renewal after which the high-risk validity is still counted from an earlier one. -/
def Renewal.CarriesOver (r : Renewal) : Prop := r.readOnly = true ∧ r.continues = true

def LastRenewal (log : List HolderEvent) (name : String) (s : Held) (r : Renewal) : Prop :=
  ∃ since, RenewedAt log r (fun _ => False) since ∧ r.shard = name ∧ r.view = s.shard ∧
    r.sent = s.sentAt ∧ (s.suspended = false → ∀ e ∈ since, e ≠ .rolledBack)

/-- The last renewal of a held shard, or of one it replaced, that was not read-only. -/
def LastFullRenewal (log : List HolderEvent) (name : String) (s : Held) (r : Renewal) : Prop :=
  ∃ since, RenewedAt log r Renewal.CarriesOver since ∧ r.shard = name ∧ r.readOnly = false ∧
    r.sent = s.highAt

structure HeldOk (log : List HolderEvent) (name : String) (s : Held) : Prop where
  last : ∃ r, LastRenewal log name s r
  full : s.hasHigh = true → ∃ r, LastFullRenewal log name s r

def HolderEvent.Apart (name : String) : HolderEvent → Prop
  | .renewed r => r.shard ≠ name
  | .rolledBack => False
  | .dropped => False

variable {log : List HolderEvent} {r : Renewal}

theorem RenewedAt.snoc {since : List HolderEvent} {again : Renewal → Prop}
    (h : RenewedAt log r again since) {e : HolderEvent} (hdropped : e ≠ .dropped)
    (hagain : ∀ r', e = .renewed r' → r'.shard = r.shard → again r') :
    RenewedAt (log ++ [e]) r again (since ++ [e]) := by
  obtain ⟨⟨before, rfl⟩, hkept, hrenewed⟩ := h
  refine ⟨⟨before, by simp⟩, fun e' he' => ?_, fun r' hr' hshard => ?_⟩
  · rcases mem_append.1 he' with he' | he'
    · exact hkept e' he'
    exact mem_singleton.1 he' ▸ hdropped
  rcases mem_append.1 hr' with hr' | hr'
  · exact hrenewed r' hr' hshard
  exact hagain r' (mem_singleton.1 hr').symm hshard

theorem renewedAt_last (log : List HolderEvent) (r : Renewal) (again : Renewal → Prop) :
    RenewedAt (log ++ [.renewed r]) r again [] :=
  ⟨⟨log, rfl⟩, by simp, by simp⟩

variable {name : String} {s : Held}

section
variable (h : HeldOk log name s)
include h

theorem HeldOk.apart {e : HolderEvent} (hapart : e.Apart name) : HeldOk (log ++ [e]) name s := by
  have hdropped : e ≠ .dropped := by
    rintro rfl
    exact hapart
  have hrollback : e ≠ .rolledBack := by
    rintro rfl
    exact hapart
  have hother : ∀ r', e = .renewed r' → r'.shard ≠ name := by
    rintro r' rfl
    exact hapart
  refine ⟨?_, fun hhigh => ?_⟩
  · obtain ⟨r, since, hat, rfl, hview, hsent, hclean⟩ := h.last
    refine ⟨r, since ++ [e], hat.snoc hdropped hother, rfl, hview, hsent, fun hs e' he' => ?_⟩
    rcases mem_append.1 he' with he' | he'
    · exact hclean hs e' he'
    exact mem_singleton.1 he' ▸ hrollback
  obtain ⟨r, since, hat, rfl, hfull, hsent⟩ := h.full hhigh
  exact ⟨r, since ++ [e], hat.snoc hdropped fun r' hr' hshard => absurd hshard (hother r' hr'),
    rfl, hfull, hsent⟩

/-- A rollback suspends the shard and leaves what it says of its renewals. -/
theorem HeldOk.suspend :
    HeldOk (log ++ [.rolledBack]) name { s with suspended := true } := by
  refine ⟨?_, fun hhigh => ?_⟩
  · obtain ⟨r, since, hat, hshard, hview, hsent, -⟩ := h.last
    exact ⟨r, since ++ [.rolledBack], hat.snoc (by simp) (by simp), hshard, hview, hsent, by simp⟩
  obtain ⟨r, since, hat, hshard, hfull, hsent⟩ := h.full hhigh
  exact ⟨r, since ++ [.rolledBack], hat.snoc (by simp) (by simp), hshard, hfull, hsent⟩

/-- Fields that say nothing about renewals may change. -/
theorem HeldOk.congr {s' : Held} (hshard : s'.shard = s.shard) (hsent : s'.sentAt = s.sentAt)
    (hhighAt : s'.highAt = s.highAt) (hhas : s'.hasHigh = s.hasHigh)
    (hsuspended : s'.suspended = s.suspended) : HeldOk log name s' := by
  refine ⟨?_, fun hhigh => ?_⟩
  · simpa only [LastRenewal, hshard, hsent, hsuspended] using h.last
  simpa only [LastFullRenewal, hhighAt] using h.full (hhas ▸ hhigh)

end

theorem heldOk_full (hfull : r.readOnly = false)
    (hview : r.view = s.shard) (hsent : r.sent = s.sentAt) (hhigh : r.sent = s.highAt) :
    HeldOk (log ++ [.renewed r]) r.shard s :=
  ⟨⟨r, [], renewedAt_last log r _, rfl, hview, hsent, by simp⟩,
    fun _ => ⟨r, [], renewedAt_last log r _, rfl, hfull, hhigh⟩⟩

/-- A read-only renewal of a shard that was held: the high-risk validity carries over. -/
theorem HeldOk.readOnly {s' : Held}
    (h : HeldOk log r.shard s) (hreadOnly : r.readOnly = true) (hcontinues : r.continues = true)
    (hview : r.view = s'.shard) (hsent : r.sent = s'.sentAt) (hhighAt : s'.highAt = s.highAt)
    (hhas : s'.hasHigh = s.hasHigh) : HeldOk (log ++ [.renewed r]) r.shard s' := by
  refine ⟨⟨r, [], renewedAt_last log r _, rfl, hview, hsent, by simp⟩, fun hhigh => ?_⟩
  obtain ⟨r', since, hat, hshard, hfull, hsent'⟩ := h.full (hhas ▸ hhigh)
  refine ⟨r', since ++ [.renewed r], hat.snoc (by simp) ?_, hshard, hfull,
    hsent'.trans hhighAt.symm⟩
  rintro _ ⟨rfl⟩ -
  exact ⟨hreadOnly, hcontinues⟩

/-- A read-only renewal of a shard that was not held: it is not valid for high-risk operations. -/
theorem heldOk_fresh (hview : r.view = s.shard) (hsent : r.sent = s.sentAt)
    (hhas : s.hasHigh = false) : HeldOk (log ++ [.renewed r]) r.shard s :=
  ⟨⟨r, [], renewedAt_last log r _, rfl, hview, hsent, by simp⟩, by simp [hhas]⟩

/-! ## Answers -/

def HolderOk (log : List HolderEvent) (h : Holder) : Prop :=
  ∀ name s, h.shards.lookup name = some s → HeldOk log name s

variable {h : Holder}

theorem HolderOk.renew (hok : HolderOk log h) (hs : HeldOk (log ++ [.renewed r]) r.shard s) :
    HolderOk (log ++ [.renewed r]) (h.put r.shard s) := by
  intro name s' hs'
  rcases Holder.lookup_put hs' with ⟨rfl, rfl⟩ | ⟨hname, hheld⟩
  · exact hs
  exact (hok name s' hheld).apart (Ne.symm hname)

/-- The shard changes in a field that says nothing about renewals. -/
theorem HolderOk.put (hok : HolderOk log h)
    (hs : HeldOk log name s) : HolderOk log (h.put name s) := by
  intro name' s' hs'
  rcases Holder.lookup_put hs' with ⟨rfl, rfl⟩ | ⟨-, hheld⟩
  · exact hs
  exact hok name' s' hheld

theorem HolderOk.applyShard (hok : HolderOk log h) (newer : Bool) (sent : Int)
    (a : ShardAnswer) : HolderOk (log ++ (h.renewal newer sent a).toList.map .renewed)
      (h.applyShard newer sent a).1 := by
  -- a shard of the answer that renews nothing
  have hnone : ∀ h', HolderOk log h' →
      HolderOk (log ++ (none : Option Renewal).toList.map .renewed) h' := by
    intro h' hok'
    simpa using hok'
  unfold Holder.renewal Holder.applyShard
  dsimp only
  generalize hview : a.view.map (fitting · h.defs) = view
  cases hs : h.shards.lookup a.shard with
  | none =>
    cases a.status <;> cases view <;> dsimp only <;> try exact hnone h hok
    -- a view of a shard that was not held
    cases hro : a.readOnly with
    | false => exact hok.renew (heldOk_full rfl rfl rfl rfl)
    | true => exact hok.renew (heldOk_fresh rfl rfl rfl)
  | some s =>
    have hheld := hok a.shard s hs
    cases a.status with
    | unchanged =>
      dsimp only
      split
      · exact hnone h hok
      · cases hro : a.readOnly with
        | false => exact hok.renew (heldOk_full rfl rfl rfl rfl)
        | true => exact hok.renew (HeldOk.readOnly (s := s) hheld rfl rfl rfl rfl rfl rfl)
    | changed =>
      cases view with
      | none => exact hnone h hok
      | some v =>
        dsimp only
        split
        · exact hnone h hok
        split
        · exact hnone _ (hok.put (hheld.congr rfl rfl rfl rfl rfl))
        · cases hro : a.readOnly with
          | false => exact hok.renew (heldOk_full rfl rfl rfl rfl)
          | true => exact hok.renew (HeldOk.readOnly (s := s) hheld rfl rfl rfl rfl rfl rfl)
    | closed => exact hnone _ (hok.put (hheld.congr rfl rfl rfl rfl rfl))
    | other => exact hnone h hok

variable {newer : Bool} {sent : Int}

theorem HolderOk.applyShards (shards : List ShardAnswer) :
    ∀ {log : List HolderEvent} {h : Holder}, HolderOk log h →
      HolderOk (log ++ Holder.renewals newer sent h shards)
        (Holder.applyShards newer sent h shards).1 := by
  induction shards with
  | nil =>
    intro log h hok
    simpa [Holder.renewals, Holder.applyShards] using hok
  | cons a shards ih =>
    intro log h hok
    have hrest := ih (hok.applyShard newer sent a)
    simpa only [Holder.renewals, Holder.applyShards, append_assoc] using hrest

/-- **An answer.** Discarded or refused it changes nothing, a rollback suspends every shard, and an
accepted one renews shard by shard, after dropping them all under a higher generation. -/
theorem HolderOk.verify (hok : HolderOk log h) (nonce : String) (ans : VerifyAnswer)
    (sent : Int) : HolderOk (log ++ h.events nonce ans sent) (h.verify nonce ans sent).1 := by
  unfold Holder.events Holder.verify
  split
  · simpa using hok
  · cases parseInt64 ans.recoveryGeneration.value with
    | none => simpa using hok
    | some gen =>
      dsimp only
      unfold Holder.apply
      split
      · intro name s hs
        rw [suspend_lookup, map_eq_some_iff] at hs
        obtain ⟨s', hs', rfl⟩ := hs
        exact (hok name s' hs').suspend
      rw [← append_assoc]
      refine HolderOk.applyShards ans.shards ?_
      cases h.newer gen with
      | false =>
        intro name s hs
        simpa using hok name s hs
      | true =>
        intro name s hs
        cases hs

/-! ## Runs of a member -/

/-- What every step keeps: the shards are as the log says, and nothing was sent in the future. -/
structure MemberOk (s : Member) : Prop where
  holder : HolderOk s.log s.holder
  request : ∀ nonce sent, s.request = some (nonce, sent) → sent ≤ s.clock
  sent : ∀ r, .renewed r ∈ s.log → r.sent ≤ s.clock

theorem renewal_sent {a : ShardAnswer} (hr : h.renewal newer sent a = some r) : r.sent = sent := by
  unfold Holder.renewal at hr
  split at hr
  · split at hr <;> cases hr
    rfl
  · split at hr
    · cases hr
    split at hr <;> cases hr
    rfl
  · cases hr
    rfl
  cases hr

theorem renewals_sent (shards : List ShardAnswer) :
    ∀ {h : Holder} {r : Renewal}, .renewed r ∈ Holder.renewals newer sent h shards →
      r.sent = sent := by
  induction shards with
  | nil =>
    intro h r hr
    cases hr
  | cons a shards ih =>
    intro h r hr
    rcases mem_append.1 hr with hr | hr
    · obtain ⟨r', hr', ⟨⟩⟩ := mem_map.1 hr
      exact renewal_sent (mem_toList.1 hr')
    exact ih hr

/-- An answer renews with the reading its request was sent at. -/
theorem events_sent {nonce : String} {ans : VerifyAnswer}
    (hr : .renewed r ∈ h.events nonce ans sent) : r.sent = sent := by
  unfold Holder.events at hr
  split at hr
  · cases hr
  split at hr
  · cases hr
  split at hr
  · simp at hr
  rcases mem_append.1 hr with hr | hr
  · split at hr <;> simp at hr
  exact renewals_sent ans.shards hr

theorem memberOk_init (defs : Option Definitions) (clock : Int) : MemberOk (.init defs clock) where
  holder := nofun
  request := nofun
  sent := nofun

theorem memberStep_ok {s s' : Member} {a : MemberAction} (hstep : memberStep s a = some s')
    (hok : MemberOk s) : MemberOk s' := by
  cases a with
  | advance d =>
    cases hstep
    refine ⟨hok.holder, fun nonce sent hsent => ?_, fun r hr => ?_⟩
    · have := hok.request nonce sent hsent
      dsimp only
      omega
    have := hok.sent r hr
    dsimp only
    omega
  | send nonce =>
    simp only [memberStep] at hstep
    split at hstep <;> cases hstep
    refine ⟨hok.holder, fun nonce' sent hsent => ?_, hok.sent⟩
    cases hsent
    exact le_refl _
  | answer ans =>
    simp only [memberStep, map_eq_some_iff] at hstep
    obtain ⟨⟨nonce, sent⟩, hrequest, rfl⟩ := hstep
    refine ⟨hok.holder.verify nonce ans sent, by simp, fun r hr => ?_⟩
    rcases mem_append.1 hr with hr | hr
    · exact hok.sent r hr
    rw [events_sent hr]
    exact hok.request nonce sent hrequest
  | lost =>
    simp only [memberStep, map_eq_some_iff] at hstep
    obtain ⟨_, -, rfl⟩ := hstep
    exact ⟨hok.holder, by simp, hok.sent⟩
  | rest wall =>
    cases hstep
    exact ⟨hok.holder, hok.request, hok.sent⟩
  | tick wall =>
    cases hstep
    refine ⟨fun name held hheld => ?_, hok.request, fun r hr => ?_⟩
    · simp only [Holder.tick] at hheld
      split at hheld
      · cases hheld
      next hstalled => simpa [hstalled] using hok.holder name held hheld
    rcases mem_append.1 hr with hr | hr
    · exact hok.sent r hr
    split at hr <;> simp at hr

theorem memberRun_ok {defs : Option Definitions} {clock : Int} {acts : List MemberAction}
    {s : Member} (hrun : run memberStep (.init defs clock) acts = some s) : MemberOk s :=
  run_invariant_of_step (P := MemberOk) (fun _ _ _ hok hstep => memberStep_ok hstep hok)
    (memberOk_init defs clock) hrun

/-! ## What a lookup uses -/

/-- Every rollback among the events is followed by a renewal of the shard. -/
def Cleared (name : String) (since : List HolderEvent) : Prop :=
  ∀ before after, since = before ++ .rolledBack :: after → ∃ r, .renewed r ∈ after ∧ r.shard = name

/-- Without a rollback since the last renewal, those before it are cleared. -/
theorem cleared_of_last {since since' : List HolderEvent} {last : Renewal} {again : Renewal → Prop}
    (hat : RenewedAt log r again since) (hlast : RenewedAt log last (fun _ => False) since')
    (hclean : ∀ e ∈ since', e ≠ .rolledBack) : Cleared last.shard since := by
  rintro before after rfl
  obtain ⟨⟨old, rfl⟩, -, -⟩ := hat
  obtain ⟨⟨old', hsame⟩, -, -⟩ := hlast
  rw [← cons_append, ← append_assoc, append_eq_append_iff] at hsame
  refine ⟨last, ?_, rfl⟩
  rcases hsame with ⟨between, -, hrest⟩ | ⟨between, -, hrest⟩
  · -- the rollback comes first, then the last renewal
    cases between with
    | nil => cases hrest
    | cons e between =>
      cases hrest
      simp
  -- a rollback after the last renewal, which there is not
  cases between with
  | nil => cases hrest
  | cons e between =>
    cases hrest
    exact absurd rfl (hclean .rolledBack (by simp))

/-- The renewals after which a lookup still counts from an earlier one. -/
def countedOn : Bool → Renewal → Prop
  | true => Renewal.CarriesOver
  | false => fun _ => False

/-- **A lookup uses what was renewed within its validity.** Whatever answers a member got, the shard
a lookup uses was renewed by a request sent less than `W` less the drift before now; for a high-risk
operation by one that was not read-only, since which the shard was only renewed read-only or
replaced by a read-only one. The grant ends exactly when that validity does, every rollback since is
cleared, and the view is the one the shard's last renewal left. -/
theorem lookup_within_validity (defs : Option Definitions) (clock : Int) (acts : List MemberAction)
    (s : Member) (hrun : run memberStep (.init defs clock) acts = some s)
    (resourceType principal : String) (high : Bool) (order : List String) (name : String)
    (held : Held) (grant : Grant)
    (hfound : s.holder.lookup resourceType principal high s.clock order =
      some (name, held, grant)) :
    ∃ r since, RenewedAt s.log r (countedOn high) since ∧ r.shard = name ∧
      (high = true → r.readOnly = false) ∧ r.sent ≤ s.clock ∧
      s.clock - r.sent < validity (if high then wHigh else wRead) ∧
      grant.cutoff = r.sent + validity (if high then wHigh else wRead) ∧ Cleared name since ∧
      ∃ last since', RenewedAt s.log last (fun _ => False) since' ∧ last.shard = name ∧
        last.view = held.shard ∧ grant.segments = Holder.segments held resourceType principal := by
  have hok := memberRun_ok hrun
  obtain ⟨hheld, hvalid, hsegments, hcutoff⟩ := lookup_spec hfound
  obtain ⟨hlastRenewal, hfullRenewal⟩ := hok.holder name held hheld
  obtain ⟨last, since', hlast, rfl, hview, hlastSent, hclean⟩ := hlastRenewal
  simp only [Holder.refused, decide_eq_false_iff_not, not_or, Bool.not_eq_true, not_le] at hvalid
  obtain ⟨-, hsuspended, -, hhigh, hbefore⟩ := hvalid
  have hclean := hclean hsuspended
  -- the renewal that is counted from: its sending is what the validity is counted from
  obtain ⟨r, since, hat, hshard, hfull, hsent⟩ : ∃ r since,
      RenewedAt s.log r (countedOn high) since ∧ r.shard = last.shard ∧
      (high = true → r.readOnly = false) ∧
      r.sent = (if high then held.highAt else held.sentAt) := by
    cases high with
    | false => exact ⟨last, since', hlast, rfl, by simp, by simpa using hlastSent⟩
    | true =>
      have hhas : held.hasHigh = true := by simpa using hhigh
      obtain ⟨r, since, hat, hshard, hfull, hsent⟩ := hfullRenewal hhas
      exact ⟨r, since, hat, hshard, fun _ => hfull, by simpa using hsent⟩
  have hmem : .renewed r ∈ s.log := by
    obtain ⟨⟨before, hlog⟩, -, -⟩ := hat
    simp [hlog]
  rw [Holder.validTill, ← hsent] at hbefore hcutoff
  exact ⟨r, since, hat, hshard, hfull, hok.sent r hmem, by omega, hcutoff,
    cleared_of_last hat hlast hclean, last, since', hlast, rfl, hview, hsegments⟩

/-- A view for shard `a` renewed in full, and then read-only a second later: a high-risk lookup half
a second after that counts from the first request. -/
theorem high_risk_counts_from_the_full_renewal :
    ∃ s held grant, run memberStep (.init none 1)
      [.send "n", .advance 5, .answer (answerAt "5"), .advance 1000000000, .send "n",
        .answer { answerAt "5" with
          shards := [{ shard := "a", status := .unchanged, readOnly := true }] },
        .advance 500000000] = some s ∧
      s.holder.lookup "order" "u" true s.clock ["a"] = some ("a", held, grant) ∧
      ∃ r since, RenewedAt s.log r Renewal.CarriesOver since ∧ r.readOnly = false ∧
        grant.cutoff = r.sent + validity wHigh ∧ grant.cutoff = 4995000001 := by
  refine ⟨?s, ?held, ?grant, ?hrun, ?hfound, ?hrenewed⟩
  case' hrenewed =>
    have h := lookup_within_validity none 1 _ ?s ?hrun "order" "u" true ["a"] "a" ?held ?grant
      ?hfound
  case hrun | hfound => rfl
  obtain ⟨r, since, hat, -, hfull, -, -, hends, -⟩ := h
  exact ⟨r, since, hat, hfull rfl, hends, rfl⟩

end BeSdk.Authz
