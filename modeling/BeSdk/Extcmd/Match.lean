import BeSdk.Extcmd.State
import Mathlib.Data.List.Sort
import Mathlib.Data.String.Basic

/-!
# Matching after a recovery

`Match` of `extcmd/reconcile.go`: open commands, external records and issue records give one
conclusion per reference.  A command is unique per requester and reference, and the conclusions are
collected by reference: of two open commands with one reference only the last has a conclusion.

A Go map is a list of its entries, in the order of its walk; the answer is ordered by reference.
-/

namespace BeSdk.Extcmd.Reconcile

open List

/-- A local command not final. -/
structure Open where
  reference : String
  command : String
  operation : String
  facts : Facts
  sendingAt : Option Int := none

inductive Verdict
  | matched | deadline | unknown | manual | externalOnly | possiblyExecuted
deriving DecidableEq

structure Conclusion where
  reference : String
  command : String := ""
  conclusion : Verdict
  state : Option State := none
  resendDeadline : Option Int := none
  firstReached : Option Int := none
  detail : String := ""

/-- What Match reads besides the open commands. -/
structure Recovery where
  external : List (String × External) := []
  «local» : List String := []
  issued : List String := []
  caps : String → Capabilities
  t : Int
  unrecordedUntil : Int
  now : Int

def earliest (o : Open) (t : Int) : Int := (o.facts.firstReached.or o.sendingAt).getD t

namespace Recovery

variable (m : Recovery)

def conclusionOf (o : Open) : Conclusion :=
  let c : Conclusion := { reference := o.reference, command := o.command, conclusion := .manual }
  match m.external.lookup o.reference with
  | some s =>
    let state := (s.state.filter (·.terminal)).getD .accepted
    { c with conclusion := .matched, state := some state }
  | none =>
    if o.facts.state = .manual then { c with detail := "manual: only a person registers it" }
    else
      let first := some (earliest o m.t)
      let f := { o.facts with firstReached := first, unrecordedUntil := some m.unrecordedUntil }
      let cp := m.caps o.operation
      match (Deadline f cp).filter (m.now ≤ ·) with
      | some d =>
        { c with conclusion := .deadline, resendDeadline := some d, firstReached := first }
      | none =>
        let r := resendable { f with resendDeadline := none } { cp with dedupeWindow := 0 } m.now
        { c with
          conclusion := if r.1 then .unknown else .manual, firstReached := first, detail := r.2 }

/-- `out[c.Reference] = c`. -/
def put (out : List Conclusion) (c : Conclusion) : List Conclusion :=
  out.filter (·.reference ≠ c.reference) ++ [c]

/-- A reference that is not seen and not local. -/
def add (v : Verdict) (out : List Conclusion) (ref : String) : List Conclusion :=
  if out.any (·.reference = ref) ∨ ref ∈ m.local then out
  else out ++ [{ reference := ref, conclusion := v }]

/-- The first loop. -/
def puts (opens : List Open) (out : List Conclusion) : List Conclusion :=
  opens.foldl (fun out o => put out (m.conclusionOf o)) out

def «match» (opens : List Open) : List Conclusion :=
  let out := m.puts opens []
  let out := (m.external.map Prod.fst).foldl (m.add .externalOnly) out
  let out := m.issued.foldl (m.add .possiblyExecuted) out
  out.insertionSort fun c c' => c.reference ≤ c'.reference

/-- The earlier request can no longer land: it has expired, or the longest processing time is over
since the last send that is recorded and since those that are not. -/
def Over (o : Open) : Prop :=
  (∃ e, o.facts.expiresAt = some e ∧ e < m.now) ∨
    let longest := (m.caps o.operation).maxProcessing
    (∀ r, o.facts.lastReached = some r → longest < m.now - r) ∧ longest < m.now - m.unrecordedUntil

structure Concludes (o : Open) (c : Conclusion) : Prop where
  reference : c.reference = o.reference
  command : c.command = o.command
  matched : c.conclusion = .matched ↔ ∃ s, m.external.lookup o.reference = some s
  unknown : c.conclusion = .unknown → m.Over o

variable {m} {o : Open} {out : List Conclusion}

theorem over_of_resendable {first : Option Int} (h : (resendable { o.facts with
      firstReached := first, unrecordedUntil := some m.unrecordedUntil, resendDeadline := none }
      { m.caps o.operation with dedupeWindow := 0 } m.now).1 = true) : m.Over o := by
  unfold resendable at h
  split at h
  · next hdeadline => simp [Deadline] at hdeadline
  split at h
  · next hexpired =>
    obtain ⟨e, he, hlt⟩ := (Option.any_eq_true _ _).1 hexpired
    exact .inl ⟨e, he, by simpa using hlt⟩
  split at h
  · next hlongest =>
    refine .inr ?_
    cases hreached : o.facts.lastReached <;> simp [Facts.latest, hreached] at hlongest ⊢
    · omega
    split at hlongest <;> omega
  cases h

theorem concludes (m : Recovery) (o : Open) : m.Concludes o (m.conclusionOf o) := by
  unfold conclusionOf
  cases hlookup : m.external.lookup o.reference with
  | some s => exact ⟨rfl, rfl, by simp [hlookup], nofun⟩
  | none =>
    dsimp only
    split
    · exact ⟨rfl, rfl, by simp [hlookup], nofun⟩
    split
    · exact ⟨rfl, rfl, by simp [hlookup], nofun⟩
    refine ⟨rfl, rfl, ?_, fun hunknown => ?_⟩
    · simp only [hlookup]
      split <;> simp
    split at hunknown
    · next h => exact over_of_resendable h
    cases hunknown

/-- One conclusion per reference. -/
def Distinct (out : List Conclusion) : Prop :=
  ∀ c ∈ out, ∀ c' ∈ out, c.reference = c'.reference → c = c'

theorem Distinct.put (h : Distinct out) (c : Conclusion) : Distinct (put out c) := by
  unfold Distinct Recovery.put
  grind [Distinct]

theorem Distinct.add (h : Distinct out) (v : Verdict) (ref : String) :
    Distinct (m.add v out ref) := by
  unfold Distinct Recovery.add
  grind [Distinct]

theorem Distinct.adds (h : Distinct out) (v : Verdict) (refs : List String) :
    Distinct (refs.foldl (m.add v) out) := by
  induction refs generalizing out with
  | nil => exact h
  | cons ref refs ih => exact ih (h.add v ref)

theorem subset_adds (v : Verdict) (refs : List String) : out ⊆ refs.foldl (m.add v) out := by
  induction refs generalizing out with
  | nil => exact fun _ => id
  | cons ref refs ih =>
    refine List.Subset.trans ?_ ih
    unfold Recovery.add
    split
    · exact fun _ => id
    exact subset_append_left _ _

variable {opens : List Open}

theorem Distinct.puts (h : Distinct out) : Distinct (m.puts opens out) := by
  induction opens generalizing out with
  | nil => exact h
  | cons o opens ih => exact ih (h.put _)

theorem distinct_match (m : Recovery) (opens : List Open) : Distinct (m.match opens) := by
  have hnil : Distinct [] := fun _ hc => absurd hc not_mem_nil
  intro c hc c' hc'
  rw [Recovery.match, mem_insertionSort] at hc hc'
  exact ((hnil.puts.adds _ _).adds _ _) c hc c' hc'

theorem mem_puts {c : Conclusion} (hc : c ∈ out) (hne : ∀ o ∈ opens, o.reference ≠ c.reference) :
    c ∈ m.puts opens out := by
  induction opens generalizing out with
  | nil => exact hc
  | cons o opens ih =>
    refine ih (mem_append_left _ (mem_filter.2 ⟨hc, ?_⟩))
      fun o' ho' => hne o' (mem_cons_of_mem _ ho')
    rw [(m.concludes o).reference]
    exact decide_eq_true (hne o mem_cons_self).symm

/-- The last command with its reference has its conclusion. -/
theorem conclusion_mem_puts (ho : o ∈ opens)
    (huniq : ∀ o' ∈ opens, o'.reference = o.reference → o' = o) :
    m.conclusionOf o ∈ m.puts opens out := by
  induction opens generalizing out with
  | nil => cases ho
  | cons x opens ih =>
    by_cases hmem : o ∈ opens
    · exact ih hmem fun o' ho' => huniq o' (mem_cons_of_mem _ ho')
    obtain rfl : o = x := (mem_cons.1 ho).resolve_right hmem
    rw [puts, foldl_cons]
    refine mem_puts (mem_append_right _ (mem_singleton_self _)) fun o' ho' heq => ?_
    rw [(m.concludes o).reference] at heq
    exact hmem (huniq o' (mem_cons_of_mem _ ho') heq ▸ ho')

/-- **Every open command.**  With commands identified by their IDs, each has a conclusion, and the
right one, if and only if no two of them have one reference. -/
theorem match_concludes_iff (m : Recovery) (opens : List Open)
    (hid : ∀ o ∈ opens, ∀ o' ∈ opens, o.command = o'.command → o = o') :
    (∀ o ∈ opens, ∃ c ∈ m.match opens, m.Concludes o c) ↔
      ∀ o ∈ opens, ∀ o' ∈ opens, o.reference = o'.reference → o = o' := by
  constructor
  · intro h o ho o' ho' href
    obtain ⟨c, hc, hconcludes⟩ := h o ho
    obtain ⟨c', hc', hconcludes'⟩ := h o' ho'
    have hsame : c = c' := distinct_match m opens c hc c' hc'
      (by rw [hconcludes.reference, hconcludes'.reference, href])
    exact hid o ho o' ho' (by rw [← hconcludes.command, hsame, hconcludes'.command])
  intro h o ho
  refine ⟨m.conclusionOf o, (mem_insertionSort _).2 ?_, m.concludes o⟩
  exact subset_adds _ _ (subset_adds _ _ (conclusion_mem_puts ho fun o' ho' => h o' ho' o ho))

end Recovery

/-- An open command, requested under a reference. -/
def request (command reference : String) : Open where
  reference := reference
  command := command
  operation := "pay"
  facts := { state := .unknown }

def recovery : Recovery where
  caps := fun _ => {}
  t := 0
  unrecordedUntil := 5
  now := 9

theorem both_concluded : let opens := [request "c1" "r1", request "c2" "r2"]
    (∃ c ∈ recovery.match opens, recovery.Concludes (request "c1" "r1") c) ∧
      ∃ c ∈ recovery.match opens, recovery.Concludes (request "c2" "r2") c := by
  intro opens
  have h := (Recovery.match_concludes_iff recovery opens (by simp [opens, request])).2
    (by simp [opens, request])
  exact ⟨h _ (by simp [opens]), h _ (by simp [opens])⟩

/-- Two requesters with one reference: the first command has no conclusion. -/
theorem one_of_two_concluded :
    (recovery.match [request "c1" "r", request "c2" "r"]).map (·.command) = ["c2"] := by
  decide

end BeSdk.Extcmd.Reconcile
