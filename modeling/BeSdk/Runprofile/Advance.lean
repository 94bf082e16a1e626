import BeSdk.Library.Runs
import BeSdk.Runprofile.Listing

/-!
# Advancing a recovery generation

`runprofile/runprofile.go`: Advance reads the current value of a kind and appends a record with the
next one.  Any number of processes do so on one store, whose records of the kind verify and only get
more: what a call reads is the records of some earlier moment, the first `read` of those at its
append.  Nothing ties the append to the reading: two calls that read the same records append, and
return, the same value.
-/

namespace BeSdk.Runprofile

open Runs List Prod

/-- `NextGeneration`, in 64 bits. -/
def nextGeneration (runProfile : Int) (seen : List Int) : Int :=
  Int.bmod (seen.foldl max runProfile + 1) 18446744073709551616

namespace Advance

/-- A call of process `c`, which read the first `read` records. -/
structure Call (ι : Type) where
  c : ι
  seen : List Int
  read : Nat

structure System (ι β : Type) where
  records : List (Record β)
  returned : List (Int × Call ι) := []

/-- A call returns its value, or a record is written and no value returned: by a call whose Append
failed, or by anyone else. -/
inductive Action (ι β : Type)
  | advance (a : Call ι)
  | other (r : Record β)

variable {ι β : Type} (x : Credentials β) (record : ι → Int → Record β) (s : System ι β)

/-- What Current was for the call. -/
def System.current (a : Call ι) : Int := currentOf x (s.records.take a.read)

def step : Action ι β → Option (System ι β)
  | .advance a =>
    let next := nextGeneration (s.current x a) a.seen
    if a.read ≤ s.records.length then
      some { records := s.records ++ [record a.c next], returned := (next, a) :: s.returned }
    else none
  | .other r => some { s with records := s.records ++ [r] }

/-- The values that a call reads and has seen are below `2 ^ 63 - 1`. -/
def InRange : Action ι β → Bool
  | .advance a => s.current x a < 9223372036854775807 ∧ ∀ v ∈ a.seen, v < 9223372036854775807
  | .other _ => true

/-- Nothing was recorded between the call's reading and its append. -/
def Undisturbed : Action ι β → Bool
  | .advance a => a.read = s.records.length
  | .other _ => true

/-- The value is above all that the call has seen and all that was recorded when it read. -/
structure Above (recs : List (Record β)) (p : Int × Call ι) : Prop where
  read : p.2.read ≤ recs.length
  records : ∀ r ∈ recs.take p.2.read, ∀ v, x.value r = some v → v < p.1
  seen : ∀ v ∈ p.2.seen, v < p.1

/-- What was returned is recorded. -/
def Kept : Prop :=
  ∀ p ∈ s.returned, Above x s.records p ∧ ∃ r ∈ s.records, x.value r = some p.1

variable {x record s}

theorem currentOf_ge (recs : List (Record β)) :
    0 ≤ currentOf x recs ∧ ∀ r ∈ recs, ∀ v, x.value r = some v → v ≤ currentOf x recs := by
  have hturn (start : Int) (o : Option Int) : start ≤ (o.filter (· > start)).getD start ∧
      ∀ v, o = some v → v ≤ (o.filter (· > start)).getD start := by
    cases o with
    | none => simp
    | some v => by_cases hv : v > start <;> grind
  unfold currentOf
  generalize (0 : Int) = start
  induction recs generalizing start with
  | nil => simp
  | cons r recs ih =>
    obtain ⟨hstart, hr⟩ := hturn start (x.value r)
    obtain ⟨hle, hrecs⟩ := ih (((x.value r).filter (· > start)).getD start)
    exact ⟨Int.le_trans hstart hle,
      forall_mem_cons.2 ⟨fun v hv => Int.le_trans (hr v hv) hle, hrecs⟩⟩

theorem lt_nextGeneration {cur v : Int} {seen : List Int} (hcur : cur < 9223372036854775807)
    (hnonneg : 0 ≤ cur) (hseen : ∀ v ∈ seen, v < 9223372036854775807) (hv : v ≤ cur ∨ v ∈ seen) :
    v < nextGeneration cur seen := by
  have hmax : cur ≤ seen.foldl max cur ∧ (∀ v ∈ seen, v ≤ seen.foldl max cur) ∧
      seen.foldl max cur < 9223372036854775807 := by
    clear hv
    induction seen generalizing cur with
    | nil => simpa
    | cons v seen ih =>
      have hrest := @ih (max cur v)
      rw [foldl_cons]
      grind
  have hnext : nextGeneration cur seen = seen.foldl max cur + 1 :=
    Int.bmod_eq_of_le (by omega) (by omega)
  grind

theorem above_next {a : Call ι} (hread : a.read ≤ s.records.length)
    (hrange : InRange x s (.advance a) = true) :
    Above x s.records (nextGeneration (s.current x a) a.seen, a) := by
  simp only [InRange, decide_eq_true_eq] at hrange
  obtain ⟨hnonneg, hge⟩ := currentOf_ge (x := x) (s.records.take a.read)
  have hlt (v : Int) := lt_nextGeneration (v := v) hrange.1 hnonneg hrange.2
  exact ⟨hread, fun r hr v hv => hlt v (.inl (hge r hr v hv)), fun v hv => hlt v (.inr hv)⟩

theorem Above.append {recs : List (Record β)} {p : Int × Call ι} (h : Above x recs p)
    (r : Record β) : Above x (recs ++ [r]) p := by
  refine ⟨by have := h.read; simp only [length_append]; omega, ?_, h.seen⟩
  rw [take_append_of_le_length h.read]
  exact h.records

variable {t : System ι β} {a : Action ι β}

theorem kept_step (hvalue : ∀ c v, x.value (record c v) = some v) (hs : Kept x s)
    (hrange : InRange x s a = true) (hstep : step x record s a = some t) : Kept x t := by
  have hold (r : Record β) : ∀ p ∈ s.returned, Above x (s.records ++ [r]) p ∧
      ∃ r' ∈ s.records ++ [r], x.value r' = some p.1 := by
    intro p hp
    obtain ⟨habove, r', hr', hv⟩ := hs p hp
    exact ⟨habove.append r, r', mem_append_left _ hr', hv⟩
  cases a with
  | advance a =>
    obtain ⟨hread, ⟨⟩⟩ := Option.ite_none_right_eq_some.1 hstep
    exact forall_mem_cons.2 ⟨⟨(above_next hread hrange).append _, _,
      mem_append_right _ (mem_singleton_self _), hvalue a.c _⟩, hold _⟩
  | other r =>
    cases hstep
    exact hold r

theorem distinct_step (hs : Kept x s) (hdistinct : (s.returned.map fst).Nodup)
    (hrange : InRange x s a = true) (hquiet : Undisturbed s a = true)
    (hstep : step x record s a = some t) : (t.returned.map fst).Nodup := by
  cases a with
  | advance a =>
    obtain ⟨hread, ⟨⟩⟩ := Option.ite_none_right_eq_some.1 hstep
    have hrecs := (above_next hread hrange).records
    simp only [of_decide_eq_true hquiet, take_length] at hrecs
    -- what was returned before is recorded, so it is below this value
    refine nodup_cons.2 ⟨fun hmem => ?_, hdistinct⟩
    obtain ⟨p, hp, hnext⟩ := mem_map.1 hmem
    obtain ⟨r, hr, hv⟩ := (hs p hp).2
    exact absurd hnext (Int.ne_of_lt (hrecs r hr _ hv))
  | other r =>
    cases hstep
    exact hdistinct

/-- As long as the values fit, every value that Advance returns is above all that was recorded when
its call began and all that the call has seen.  In a run in which nothing is recorded between a
call's reading and its append, the values returned are distinct. -/
theorem advanced_values (x : Credentials β) (record : ι → Int → Record β)
    (hvalue : ∀ c v, x.value (record c v) = some v) (records : List (Record β))
    {as : List (Action ι β)} {t : System ι β}
    (hrange : Meets (step x record) (fun s a => InRange x s a = true) { records } as)
    (hrun : run (step x record) { records } as = some t) :
    (Meets (step x record) (fun s a => Undisturbed s a = true) { records } as →
      (t.returned.map fst).Nodup) ∧
    ∀ p ∈ t.returned, Above x t.records p := by
  have hinit : Kept x (ι := ι) { records } := nofun
  refine ⟨fun hquiet => ?_, fun p hp => ?_⟩
  · exact (run_invariant (P := fun s => Kept x s ∧ (s.returned.map fst).Nodup)
      (fun s a t hs hok hstep => ⟨kept_step hvalue hs.1 hok.1 hstep,
        distinct_step hs.1 hs.2 hok.1 hok.2 hstep⟩) ⟨hinit, nodup_nil⟩ (hrange.and hquiet) hrun).2
  · exact (run_invariant (P := Kept x) (fun s a t hs hok => kept_step hvalue hs hok) hinit hrange
      hrun p hp).1

def plain : Credentials Int :=
  { sample with
    body := fun _ => none
    chainOf := fun _ => some ["leaf"]
    verifySignature := fun _ _ => true
    verifyAcceptance := fun _ _ => true
    verifySigner := fun _ => true
    uris := fun _ => [spiffe "shop" "authz"]
    roots := ["root"]
    value := fun r => some r.rest }

def generation (_ : Unit) (v : Int) : Record Int := ⟨"shop", "generation.authz", "authz", v⟩

theorem advanced_in_turn :
    ∃ t, run (step plain generation) { records := [] } [.advance ⟨(), [7], 0⟩,
        .advance ⟨(), [], 1⟩] = some t ∧
      (t.returned.map fst).Nodup ∧ t.returned.map fst = [9, 8] :=
  exists_of_run rfl fun hrun =>
    ⟨(advanced_values plain generation (fun _ _ => rfl) [] (by decide) hrun).1 (by decide), rfl⟩

/-- Both calls read before either appends. -/
theorem advanced_together :
    ∃ t, run (step plain generation) { records := [] } [.advance ⟨(), [7], 0⟩,
        .advance ⟨(), [7], 0⟩] = some t ∧
      t.returned.map fst = [8, 8] :=
  exists_of_run rfl fun _ => rfl

end Advance
end BeSdk.Runprofile
