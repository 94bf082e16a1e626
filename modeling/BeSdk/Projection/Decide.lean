import Mathlib.Algebra.Order.Ring.Int
import Mathlib.Data.Prod.Lex

/-!
# The decision tables of a watermark source

A consumer that keeps a projection of another component's records (package `projection`) decides
with pure functions and keeps everything else in transactions around them. This file holds the
functions of `decide.go`: how an epoch's text is read (`epochKey`), what a declared source identity
means against the adopted one (`decideEpoch`), what one partition of a pull means (`pullOutcome`)
and the alignment state table (`nextState`). `compareEpochs`, with which `Projection.Apply` compares
the same texts, stands beside them because it reads them differently: it refuses what `epochKey`
reads as zero.

The lemmas are the few facts about the tables that whole runs of a consumer rest on. For the state
table they are inversions: how `blocked` is left, how `aligned` is entered, and which events keep
the record of a rollback.
-/

namespace BeSdk.Projection

/-! ## Epoch texts -/

/-- `strings.Cut` at the first dot: what stands before it, what stands after it, and whether there
is one. -/
def cut (s : String) : List Char × List Char × Bool :=
  match s.toList.dropWhile (· ≠ '.') with
  | [] => (s.toList, [], false)
  | _ :: after => (s.toList.takeWhile (· ≠ '.'), after, true)

/-- How `strconv` fails on a number: it is none, or it is too large. -/
inductive NumError where
  | invalid
  | range
deriving DecidableEq, Repr

/-- The loop of `strconv.ParseUint` in base 10 and 64 bits over the digits not read yet, `n` being
the number read so far. It stops at the first digit that overflows, before it sees what follows. -/
def parseDigits : List Char → Nat → Except NumError Nat
  | [], n => .ok n
  | c :: cs, n =>
    if c.isDigit then
      if n * 10 + (c.toNat - '0'.toNat) < 2 ^ 64 then
        parseDigits cs (n * 10 + (c.toNat - '0'.toNat))
      else .error .range
    else .error .invalid

def parseUint (s : List Char) : Except NumError Nat :=
  if s = [] then .error .invalid else parseDigits s 0

/-- The number `strconv.ParseInt` returns for the digits after the sign. Out of range it returns the
nearest number of 64 bits beside its error, else zero. -/
def clamp (negative : Bool) (digits : List Char) : Int :=
  match parseUint digits, negative with
  | .ok n, false => min (n : Int) (2 ^ 63 - 1)
  | .ok n, true => max (-(n : Int)) (-2 ^ 63)
  | .error .range, false => 2 ^ 63 - 1
  | .error .range, true => -2 ^ 63
  | .error .invalid, _ => 0

/-- `strconv.ParseInt(s, 10, 64)` with its error dropped, as `epochKey` uses it. -/
def parseInt : List Char → Int
  | '-' :: digits => clamp true digits
  | '+' :: digits => clamp false digits
  | digits => clamp false digits

/-- An epoch `<recovery generation>.<timeline>` as two numbers. Texts that are no epoch give
zeros. -/
def epochKey (e : String) : Int × Int :=
  let (g, t, _) := cut e
  (parseInt g, parseInt t)

def generation (epoch : String) : Int := (epochKey epoch).1

/-- The order of two epoch keys: by generation, then by timeline. -/
def cmpEpoch (a b : Int × Int) : Ordering :=
  if a.1 ≠ b.1 then
    if a.1 < b.1 then .lt else .gt
  else if a.2 ≠ b.2 then
    if a.2 < b.2 then .lt else .gt
  else .eq

/-- `parseEpoch` of `projection.go`: both numbers, or nothing where the text is no epoch. -/
def parseEpoch (s : String) : Option (Nat × Nat) :=
  let (g, t, found) := cut s
  match found, parseUint g, parseUint t with
  | true, .ok gen, .ok tl => some (gen, tl)
  | _, _, _ => none

/-- `compareEpochs` of `projection.go`, `none` being its error. -/
def compareEpochs (a b : String) : Option Ordering :=
  match parseEpoch a, parseEpoch b with
  | some pa, some pb => some ((compare pa.1 pb.1).then (compare pa.2 pb.2))
  | _, _ => none

theorem cmpEpoch_self (a : Int × Int) : cmpEpoch a a = .eq := by simp [cmpEpoch]

/-- A larger epoch never has a smaller generation. -/
theorem fst_le_of_cmpEpoch_gt {a b : Int × Int} (hgt : cmpEpoch a b = .gt) : b.1 ≤ a.1 := by
  unfold cmpEpoch at hgt
  split_ifs at hgt with hne hlt
  · exact not_lt.mp hlt
  exact (not_not.mp hne).ge

theorem eq_of_cmpEpoch_eq {a b : Int × Int} (heq : cmpEpoch a b = .eq) : a = b := by
  unfold cmpEpoch at heq
  by_cases hfst : a.1 = b.1
  · by_cases hsnd : a.2 = b.2
    · exact Prod.ext hfst hsnd
    simp only [hfst, hsnd, ne_eq, not_true_eq_false, if_false, not_false_eq_true, if_true] at heq
    split at heq <;> cases heq
  simp only [hfst, ne_eq, not_false_eq_true, if_true] at heq
  split at heq <;> cases heq

theorem compareEpochs_self {e : String} (he : (parseEpoch e).isSome) :
    compareEpochs e e = some .eq := by
  obtain ⟨p, hp⟩ := Option.isSome_iff_exists.mp he
  simp [compareEpochs, hp]

/-! ## Declared identities -/

/-- What a replica's answer is used for: neither an adoption nor an alignment may use one. -/
inductive Purpose where
  | unspecified
  | adopt
  | align
deriving DecidableEq, Repr

/-- A source identity: adopted by the consumer, or declared by a response. An adopted identity with
an empty `impl` has had no first contact. -/
structure Identity where
  deployment : String
  impl : String
  systemID : String
  epoch : String
  primary : Bool
  purpose : Purpose
deriving DecidableEq, Repr

/-- Epoch decisions on a declared source identity. -/
inductive Decision where
  | establish
  | use
  | adopt
  | ignoreIt
  | stall
  | block
  | discard
deriving DecidableEq, Repr

/-- DecideEpoch judges one declaration against the adopted identity. -/
def decideEpoch (adopted r : Identity) : Decision :=
  if r.deployment ≠ adopted.deployment then .block
  else if adopted.impl = "" then
    if r.primary then .establish else .discard
  else if r.impl ≠ adopted.impl then .block
  else if ¬ r.primary then
    if r.systemID = adopted.systemID ∧ r.epoch = adopted.epoch ∧ r.purpose ≠ .adopt ∧
        r.purpose ≠ .align then .use
    else .discard
  else if r.systemID ≠ adopted.systemID ∧ generation r.epoch ≤ generation adopted.epoch then
    -- a new system without a larger recovery generation: restored without advancing it
    .stall
  else match cmpEpoch (epochKey r.epoch) (epochKey adopted.epoch) with
    | .gt => .adopt
    | .lt => .ignoreIt
    | .eq => .use

variable {adopted r : Identity}

/-- An answer that is used or adopted is of the adopted instance and deployment. -/
theorem deployment_impl_of_decideEpoch (hdecision : decideEpoch adopted r ≠ .block) :
    r.deployment = adopted.deployment ∧ (adopted.impl ≠ "" → r.impl = adopted.impl) := by
  unfold decideEpoch at hdecision
  split_ifs at hdecision <;> simp_all

/-- Only a primary's answer is adopted, it has a larger epoch, and its generation is no smaller. -/
theorem decideEpoch_adopt (hdecision : decideEpoch adopted r = .adopt) :
    r.primary = true ∧ generation adopted.epoch ≤ generation r.epoch := by
  unfold decideEpoch at hdecision
  split_ifs at hdecision with _ _ _ _ hprimary
  · refine ⟨by simpa using hprimary, ?_⟩
    split at hdecision
    · next hgt => exact fst_le_of_cmpEpoch_gt hgt
    · cases hdecision
    cases hdecision

/-- An answer that is used declares the adopted generation. -/
theorem decideEpoch_use (hdecision : decideEpoch adopted r = .use) :
    generation r.epoch = generation adopted.epoch := by
  unfold decideEpoch at hdecision
  split_ifs at hdecision
  · split at hdecision
    · cases hdecision
    · cases hdecision
    next heq => exact congrArg Prod.fst (eq_of_cmpEpoch_eq heq)
  next hsame => rw [hsame.2.1]

/-! ## Pull outcomes -/

/-- What a partition of a pull's answer says it cannot be served without. -/
inductive NeedSnapshot where
  | unspecified
  | beyondRetention
  | rollbackDetected
deriving DecidableEq, Repr

/-- Pull outcomes for one partition answered by the adopted instance and epoch. -/
inductive PartitionOutcome where
  | applyToEcho
  | realign
  | stallIt
  | hold
deriving DecidableEq, Repr

/-- PullOutcome decides one partition of a pull: `requested` is the position the request carried (0:
echo only). -/
def pullOutcome (requested : Nat) (unreachable : Bool) (need : NeedSnapshot) (echo : Nat) :
    PartitionOutcome :=
  if unreachable then .hold
  else if need = .beyondRetention then .realign
  else if need = .rollbackDetected then .stallIt
  else if 0 < requested ∧ echo < requested then .stallIt
  else .applyToEcho

/-! ## The alignment state table -/

inductive Status where
  | aligned
  | aligning
  | stalled
  | blocked
deriving DecidableEq, Repr

/-- What the consumer keeps of a source's alignment state. -/
structure SourceState where
  state : Status
  -- Blocked: an operator confirmed the correction.
  confirmed : Bool
  -- A cause of the alignment is a rollback.
  rollback : Bool
  -- The recovery generation when it entered stalled.
  stalledGen : Option Int
  blockedGen : Option Int
  -- The state before blocked.
  prior : Option Status
deriving DecidableEq, Repr

/-- The kinds of input to the alignment state table. -/
inductive EventKind where
  | firstContact
  | adoptEpoch
  | beyondRetention
  | rollback
  | foreign
  | operatorConfirms
  | primaryResponse
  | alignmentDone
  | environmentCopy
deriving DecidableEq, Repr

inductive RowCheck where
  | unspecified
  | passed
  | failed
deriving DecidableEq, Repr

structure SourceEvent where
  kind : EventKind
  -- The recovery generation the input declares.
  gen : Int := 0
  -- A primary response: the adopted instance and deployment, the same system or a larger
  -- generation.
  matching : Bool := false
  -- A primary response after a confirmed correction.
  rowCheck : RowCheck := .unspecified
deriving DecidableEq, Repr

inductive TableAction where
  | refetch
  | keepRefetching
  | watermark
  | alert
  | alertAndHold
  | hold
  | confirm
  | rowCheckRefetch
  | clearAndRefetch
deriving DecidableEq, Repr

/-- `above` of `NextState`: the generation is past a remembered one. -/
def above (gen : Int) (remembered : Option Int) : Bool :=
  match remembered with
  | none => true
  | some g => decide (g < gen)

/-- The rows of `NextState` for a blocked source and no foreign input. -/
def nextBlocked (cur : SourceState) (ev : SourceEvent) : SourceState × TableAction :=
  if ev.kind = .operatorConfirms then ({ cur with confirmed := true }, .confirm)
  else if cur.confirmed = false ∨ ev.kind ≠ .primaryResponse then (cur, .hold)
  else if ev.matching = false then ({ cur with confirmed := false }, .alert)
  else if cur.prior = some .stalled ∧ above ev.gen cur.stalledGen = false then
    ({ cur with state := .stalled, confirmed := false }, .refetch)
  else if ev.rowCheck = .failed then
    ({ cur with
        state := .stalled, confirmed := false, rollback := true, stalledGen := some ev.gen },
      .refetch)
  else ({ cur with state := .aligning, confirmed := false }, .rowCheckRefetch)

/-- NextState is the alignment state table, first matching row wins. -/
def nextState (cur : SourceState) (ev : SourceEvent) : SourceState × TableAction :=
  if ev.kind = .environmentCopy then
    ({ cur with state := .aligning, rollback := false, confirmed := false }, .clearAndRefetch)
  else if ev.kind = .foreign ∧ cur.state = .blocked then (cur, .alert)
  else if ev.kind = .foreign then
    ({ cur with state := .blocked, prior := some cur.state, blockedGen := some ev.gen },
      .alertAndHold)
  else if cur.state = .blocked then nextBlocked cur ev
  else if ev.kind = .rollback then
    ({ cur with state := .stalled, rollback := true, stalledGen := some ev.gen }, .refetch)
  else if cur.state = .stalled ∧ ev.kind = .adoptEpoch ∧ above ev.gen cur.stalledGen then
    ({ cur with state := .aligning }, .refetch)
  else if cur.state = .stalled then (cur, .keepRefetching)
  else if ev.kind = .adoptEpoch ∨ ev.kind = .firstContact ∨ ev.kind = .beyondRetention then
    ({ cur with state := .aligning }, .refetch)
  else if cur.state = .aligning ∧ ev.kind = .alignmentDone then
    if cur.rollback ∧ above ev.gen cur.stalledGen = false then
      ({ cur with state := .stalled }, .alert)
    else ({ cur with state := .aligned, rollback := false }, .watermark)
  else (cur, .alert)

variable {cur : SourceState} {ev : SourceEvent}

theorem nextBlocked_cases
    {P : SourceState → TableAction → Prop} (confirm : P { cur with confirmed := true } .confirm)
    (hold : P cur .hold)
    (mismatch : P { cur with confirmed := false } .alert)
    (stalled : ev.kind = .primaryResponse → cur.confirmed = true → ev.matching = true →
      P { cur with state := .stalled, confirmed := false } .refetch)
    (failed : ev.kind = .primaryResponse → cur.confirmed = true → ev.matching = true →
      P { cur with
          state := .stalled, confirmed := false, rollback := true, stalledGen := some ev.gen }
        .refetch)
    (passed : ev.kind = .primaryResponse → cur.confirmed = true → ev.matching = true →
      P { cur with state := .aligning, confirmed := false } .rowCheckRefetch) :
    P (nextBlocked cur ev).1 (nextBlocked cur ev).2 := by
  unfold nextBlocked
  by_cases hconfirms : ev.kind = .operatorConfirms
  · rw [if_pos hconfirms]
    exact confirm
  rw [if_neg hconfirms]
  by_cases hhold : cur.confirmed = false ∨ ev.kind ≠ .primaryResponse
  · rw [if_pos hhold]
    exact hold
  rw [if_neg hhold]
  have hresponse : cur.confirmed = true ∧ ev.kind = .primaryResponse := by simpa using hhold
  by_cases hmatch : ev.matching = false
  · rw [if_pos hmatch]
    exact mismatch
  rw [if_neg hmatch]
  have hmatching : ev.matching = true := by simpa using hmatch
  by_cases hprior : cur.prior = some .stalled ∧ above ev.gen cur.stalledGen = false
  · rw [if_pos hprior]
    exact stalled hresponse.2 hresponse.1 hmatching
  rw [if_neg hprior]
  by_cases hcheck : ev.rowCheck = .failed
  · rw [if_pos hcheck]
    exact failed hresponse.2 hresponse.1 hmatching
  rw [if_neg hcheck]
  exact passed hresponse.2 hresponse.1 hmatching

/-- The rows of the table as a case rule; rows that leave the state alone are one case. -/
theorem nextState_cases {P : SourceState → TableAction → Prop} (copy : ev.kind = .environmentCopy →
      P { cur with state := .aligning, rollback := false, confirmed := false } .clearAndRefetch)
    (still : ev.kind = .foreign → cur.state = .blocked → P cur .alert)
    (foreign : ev.kind = .foreign → cur.state ≠ .blocked →
      P { cur with state := .blocked, prior := some cur.state, blockedGen := some ev.gen }
        .alertAndHold)
    (blocked : cur.state = .blocked → P (nextBlocked cur ev).1 (nextBlocked cur ev).2)
    (rollback : cur.state ≠ .blocked → ev.kind = .rollback →
      P { cur with state := .stalled, rollback := true, stalledGen := some ev.gen } .refetch)
    (realign : cur.state ≠ .blocked →
      ev.kind = .adoptEpoch ∨ ev.kind = .firstContact ∨ ev.kind = .beyondRetention →
      P { cur with state := .aligning } .refetch)
    (stopped : cur.state = .aligning → ev.kind = .alignmentDone → cur.rollback = true →
      above ev.gen cur.stalledGen = false → P { cur with state := .stalled } .alert)
    (aligned : cur.state = .aligning → ev.kind = .alignmentDone →
      ¬ (cur.rollback = true ∧ above ev.gen cur.stalledGen = false) →
      P { cur with state := .aligned, rollback := false } .watermark)
    (same : cur.state ≠ .blocked → ∀ action, action = .keepRefetching ∨ action = .alert →
      P cur action) :
    P (nextState cur ev).1 (nextState cur ev).2 := by
  unfold nextState
  by_cases hcopy : ev.kind = .environmentCopy
  · rw [if_pos hcopy]
    exact copy hcopy
  rw [if_neg hcopy]
  by_cases hstill : ev.kind = .foreign ∧ cur.state = .blocked
  · rw [if_pos hstill]
    exact still hstill.1 hstill.2
  rw [if_neg hstill]
  by_cases hforeign : ev.kind = .foreign
  · rw [if_pos hforeign]
    exact foreign hforeign fun hblocked => hstill ⟨hforeign, hblocked⟩
  rw [if_neg hforeign]
  by_cases hblocked : cur.state = .blocked
  · rw [if_pos hblocked]
    exact blocked hblocked
  rw [if_neg hblocked]
  by_cases hrollback : ev.kind = .rollback
  · rw [if_pos hrollback]
    exact rollback hblocked hrollback
  rw [if_neg hrollback]
  by_cases hadopt : cur.state = .stalled ∧ ev.kind = .adoptEpoch ∧ above ev.gen cur.stalledGen
  · rw [if_pos hadopt]
    exact realign hblocked (.inl hadopt.2.1)
  rw [if_neg hadopt]
  by_cases hstalled : cur.state = .stalled
  · rw [if_pos hstalled]
    exact same hblocked _ (.inl rfl)
  rw [if_neg hstalled]
  by_cases hrealign : ev.kind = .adoptEpoch ∨ ev.kind = .firstContact ∨ ev.kind = .beyondRetention
  · rw [if_pos hrealign]
    exact realign hblocked hrealign
  rw [if_neg hrealign]
  by_cases hdone : cur.state = .aligning ∧ ev.kind = .alignmentDone
  · rw [if_pos hdone]
    by_cases hopen : cur.rollback ∧ above ev.gen cur.stalledGen = false
    · rw [if_pos hopen]
      exact stopped hdone.1 hdone.2 hopen.1 hopen.2
    rw [if_neg hopen]
    exact aligned hdone.1 hdone.2 hopen
  rw [if_neg hdone]
  exact same hblocked _ (.inr rfl)

/-- A blocked source leaves `blocked` on nothing but a confirmed, matching answer. -/
theorem nextState_leaves_blocked (hblocked : cur.state = .blocked)
    (hkind : ev.kind ≠ .environmentCopy) (hleft : (nextState cur ev).1.state ≠ .blocked) :
    ev.kind = .primaryResponse ∧ cur.confirmed = true ∧ ev.matching = true := by
  by_cases hforeign : ev.kind = .foreign
  · simp [nextState, hforeign, hblocked] at hleft
  have hrow : nextState cur ev = nextBlocked cur ev := by
    simp [nextState, hkind, hforeign, hblocked]
  rw [hrow] at hleft
  revert hleft
  refine nextBlocked_cases (P := fun next _ => next.state ≠ .blocked → _) ?_ ?_ ?_ ?_ ?_ ?_
  · exact fun hleft => absurd hblocked hleft
  · exact fun hleft => absurd hblocked hleft
  · exact fun hleft => absurd hblocked hleft
  · exact fun hresponse hconfirmed hmatching _ => ⟨hresponse, hconfirmed, hmatching⟩
  · exact fun hresponse hconfirmed hmatching _ => ⟨hresponse, hconfirmed, hmatching⟩
  exact fun hresponse hconfirmed hmatching _ => ⟨hresponse, hconfirmed, hmatching⟩

/-- A rollback is open against generation `g`: the table remembers it with a generation of at least
`g`, and the source is not aligned. -/
structure SourceState.Open (g : Int) (cur : SourceState) : Prop where
  rollback : cur.rollback = true
  gen : ∃ n, cur.stalledGen = some n ∧ g ≤ n
  state : cur.state ≠ .aligned

theorem nextBlocked_open {g : Int} (hopen : cur.Open g)
    (hresponse : ev.kind = .primaryResponse → ev.matching = true → g ≤ ev.gen) :
    (nextBlocked cur ev).1.Open g := by
  obtain ⟨hrollback, hgen, hstate⟩ := id hopen
  refine nextBlocked_cases (P := fun next _ => next.Open g) ?_ ?_ ?_ ?_ ?_ ?_
  · exact ⟨hrollback, hgen, hstate⟩
  · exact hopen
  · exact ⟨hrollback, hgen, hstate⟩
  · exact fun _ _ _ => ⟨hrollback, hgen, by simp⟩
  · -- a failed row check overwrites the remembered generation with the answer's own
    exact fun hkind _ hmatching => ⟨rfl, ⟨ev.gen, rfl, hresponse hkind hmatching⟩, by simp⟩
  exact fun _ _ _ => ⟨hrollback, hgen, by simp⟩

/-- An open rollback stays open through every row of the table, as long as what overwrites its
generation is no smaller and no alignment past `g` ends. -/
theorem nextState_open {g : Int} (hopen : cur.Open g)
    (hkind : ev.kind ≠ .environmentCopy) (hrollback : ev.kind = .rollback → g ≤ ev.gen)
    (hresponse : ev.kind = .primaryResponse → ev.matching = true → g ≤ ev.gen)
    (hdone : ev.kind = .alignmentDone → ev.gen ≤ g) : (nextState cur ev).1.Open g := by
  obtain ⟨hflag, hgen, hstate⟩ := id hopen
  refine nextState_cases (P := fun next _ => next.Open g) ?_ ?_ ?_ ?_ ?_ ?_ ?_ ?_ ?_
  · exact fun hcopy => absurd hcopy hkind
  · exact fun _ _ => hopen
  · exact fun _ _ => ⟨hflag, hgen, by simp⟩
  · exact fun _ => nextBlocked_open hopen hresponse
  · exact fun _ hback => ⟨rfl, ⟨ev.gen, rfl, hrollback hback⟩, by simp⟩
  · exact fun _ _ => ⟨hflag, hgen, by simp⟩
  · exact fun _ _ _ _ => ⟨hflag, hgen, by simp⟩
  · -- the alignment ends at a generation that is not past the rollback's: the table may not align
    intro _ hend hclosed
    obtain ⟨n, hn, hle⟩ := hgen
    refine absurd ⟨hflag, ?_⟩ hclosed
    simpa [above, hn] using (hdone hend).trans hle
  exact fun _ _ _ => hopen

end BeSdk.Projection
