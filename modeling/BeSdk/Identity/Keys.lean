import BeSdk.Library.Runs

/-!
# The issuer's keys

`identity/keys.go`: one set of keys, replaced by the fetch that ends, a periodic one or one for an
unknown kid.  The two kinds run side by side, and a slow fetch that was answered before a fast one
began puts the older set back.
-/

namespace BeSdk.Identity

open Runs Function List Option

inductive Refresh
  | periodic
  | unknownKid
deriving DecidableEq, Repr

/-- In nanoseconds. -/
def unknownKidRefresh : Int := 30000000000

def keyMaxAge : Int := 3600000000000

/-- A key set is the issuer's at some moment; with it, the moments of the sets that verifications
used and the starts of the refreshes for unknown kids, the latest first. -/
structure KeySet where
  now : Int
  set : Option Int := none
  fetchedAt : Int := 0
  lastUnknown : Option Int := none
  fetches : Refresh → Option Int := fun _ => none
  used : List Int := []
  starts : List Int := []

/-- Time passes; the loop's refresh begins; a fetch ends, with the set of a moment or an error; a
verification meets its kid, and later looks it up in the set. -/
inductive Action
  | tick (d : Nat)
  | begin
  | fetched (k : Refresh) (moment : Option Int)
  | meet (kid : String)
  | verify

-- the issuer's kids over time
variable (kids : Int → String → Bool)

def KeySet.known (s : KeySet) (kid : String) : Bool := s.set.any (kids · kid)

def step (s : KeySet) : Action → Option KeySet
  | .tick d => some { s with now := s.now + d }
  | .begin =>
    if s.fetches .periodic = none then
      some { s with fetches := update s.fetches .periodic (some s.now) }
    else none
  | .fetched k moment =>
    match s.fetches k with
    | none => none
    | some start =>
      let s := { s with fetches := update s.fetches k none }
      match moment with
      | none => some s
      | some m =>
        if start ≤ m ∧ m ≤ s.now then some { s with set := some m, fetchedAt := s.now } else none
  | .meet kid =>
    if s.known kids kid = false ∧ s.fetches .unknownKid = none ∧
        ∀ last ∈ s.lastUnknown, unknownKidRefresh ≤ s.now - last then
      some { s with
        lastUnknown := some s.now, starts := s.now :: s.starts
        fetches := update s.fetches .unknownKid (some s.now) }
    else some s
  | .verify =>
    match s.set.filter fun _ => s.now - s.fetchedAt ≤ keyMaxAge with
    | some m => some { s with used := m :: s.used }
    | none => some s

/-- The fetch that ends does not answer an earlier moment than the set that is there. -/
def InOrder (s : KeySet) : Action → Bool
  | .fetched _ (some m) => s.set.all (· ≤ m)
  | _ => true

structure Spaced (s : KeySet) : Prop where
  last : ∀ t ∈ s.starts, ∃ last ∈ s.lastUnknown, t ≤ last
  now : ∀ t ∈ s.lastUnknown, t ≤ s.now
  starts : s.starts.Pairwise fun later earlier => unknownKidRefresh ≤ later - earlier

structure Ordered (s : KeySet) : Prop where
  set : ∀ u ∈ s.used, ∃ m ∈ s.set, u ≤ m
  used : s.used.Pairwise (· ≥ ·)

variable {kids} {s t : KeySet} {a : Action}

theorem spaced_step (hs : Spaced s) (hstep : step kids s a = some t) : Spaced t := by
  obtain ⟨hlast, hnow, hstarts⟩ := hs
  cases a with simp only [step] at hstep
  | tick d =>
    cases hstep
    exact ⟨hlast, fun t ht => by have := hnow t ht; simp only; omega, hstarts⟩
  | meet kid =>
    split at hstep
    next hguard =>
      cases hstep
      refine ⟨forall_mem_cons.2 ⟨⟨_, rfl, Int.le_refl _⟩, fun u hu => ?_⟩, ?_,
        pairwise_cons.2 ⟨fun u hu => ?_, hstarts⟩⟩
      · obtain ⟨last, hmem, hle⟩ := hlast u hu
        exact ⟨_, rfl, Int.le_trans hle (hnow last hmem)⟩
      · rintro _ ⟨⟩
        exact Int.le_refl _
      · obtain ⟨last, hmem, hle⟩ := hlast u hu
        have := hguard.2.2 last hmem
        omega
    · cases hstep
      exact ⟨hlast, hnow, hstarts⟩
  | begin | fetched | verify =>
    repeat' split at hstep
    all_goals cases hstep
    all_goals exact ⟨hlast, hnow, hstarts⟩

theorem ordered_step (hs : Ordered s) (hok : InOrder s a = true)
    (hstep : step kids s a = some t) : Ordered t := by
  obtain ⟨hset, hused⟩ := hs
  cases a with simp only [step] at hstep
  | fetched k moment =>
    split at hstep
    · cases hstep
    split at hstep
    · cases hstep
      exact ⟨hset, hused⟩
    obtain ⟨-, ⟨⟩⟩ := ite_none_right_eq_some.1 hstep
    refine ⟨fun u hu => ⟨_, rfl, ?_⟩, hused⟩
    obtain ⟨m, hm, hle⟩ := hset u hu
    simp only [InOrder, mem_def.1 hm, all_some, decide_eq_true_eq] at hok
    exact Int.le_trans hle hok
  | verify =>
    split at hstep
    next m hm =>
      cases hstep
      have hm := (filter_eq_some_iff.1 hm).1
      refine ⟨forall_mem_cons.2 ⟨⟨m, hm, Int.le_refl _⟩, hset⟩, pairwise_cons.2 ⟨fun u hu => ?_,
        hused⟩⟩
      obtain ⟨m', hm', hle⟩ := hset u hu
      cases hm.symm.trans hm'
      exact hle
    · cases hstep
      exact ⟨hset, hused⟩
  | tick | begin | meet =>
    repeat' split at hstep
    all_goals cases hstep
    all_goals exact ⟨hset, hused⟩

/-- The refreshes for unknown kids start at least 30 seconds apart.  In a run in which no fetch ends
with the set of an earlier moment than the one that is there, no verification uses the set of an
earlier moment than one before it. -/
theorem keys_in_order (kids : Int → String → Bool) (now : Int) {as : List Action} {t : KeySet}
    (hrun : run (step kids) { now } as = some t) :
    (Meets (step kids) (fun s a => InOrder s a = true) { now } as → t.used.Pairwise (· ≥ ·)) ∧
      t.starts.Pairwise fun later earlier => unknownKidRefresh ≤ later - earlier :=
  have hordered : Ordered { now } := ⟨nofun, .nil⟩
  have hspaced : Spaced { now } := ⟨nofun, nofun, .nil⟩
  ⟨fun hmeets =>
      (run_invariant (fun _ _ _ hs hok => ordered_step hs hok) hordered hmeets hrun).used,
    (run_invariant_of_step (fun _ _ _ hs => spaced_step hs) hspaced hrun).starts⟩

/-- The issuer removes the key `a` at 5, and then has `b`. -/
def rotated (moment : Int) (kid : String) : Bool := kid = if moment < 5 then "a" else "b"

theorem keys_in_order_rotated :
    ∃ t, run (step rotated) { now := 0 } [.begin, .fetched .periodic (some 0), .verify,
        .tick 6, .meet "b", .fetched .unknownKid (some 6), .verify] = some t ∧
      t.used.Pairwise (· ≥ ·) ∧ t.used = [6, 0] :=
  exists_of_run rfl fun hrun => ⟨(keys_in_order rotated 0 hrun).1 (by decide), rfl⟩

/-- A slow periodic fetch ends after the fetch for `b`, and the removed key is back. -/
theorem removed_key_is_back :
    ∃ t, run (step rotated) { now := 0 } [.begin, .tick 6, .meet "b",
        .fetched .unknownKid (some 6), .verify, .fetched .periodic (some 0), .verify]
        = some t ∧ t.used = [0, 6] ∧ t.known rotated "a" = true :=
  exists_of_run rfl fun _ => ⟨rfl, rfl⟩

end BeSdk.Identity
