import BeSdk.Tiering.Class
import BeSdk.Tiering.Holds
import Mathlib.Algebra.Group.Int.Defs

/-!
# Retentions

A unit is destroyed when its retention is due: the shortest days of its class after its latest
anchor.  The days come from the declaration or from the deployment's configuration (`retentionOf`),
which takes any positive number of them; they are multiplied into 64-bit nanoseconds, which hold
106751 days.  Up to there a unit is destroyed only when the days have passed; for more the product
wraps, and a unit is due too early (`destroyed_only_past_its_retention_iff`).

Destroy reads twice, first without locks and then in the transaction that decides.  What a
transaction reads is one value here (`DestroyRead`); how the two interleave with holds is the
business of `Holds`.
-/

namespace BeSdk.Tiering

open Classes Option

/-! ## The configured retention -/

/-- `unicode.IsSpace`. -/
def isSpace (c : Char) : Bool :=
  c.val ∈ [0x09, 0x0A, 0x0B, 0x0C, 0x0D, 0x20, 0x85, 0xA0, 0x1680, 0x2028, 0x2029, 0x202F, 0x205F,
    0x3000] || (0x2000 ≤ c.val && c.val ≤ 0x200A)

/-- `strings.TrimSpace`. -/
def trimSpace (cs : List Char) : List Char :=
  ((cs.dropWhile isSpace).reverse.dropWhile isSpace).reverse

/-- What is before the first separator and after it. -/
def cut (sep : Char) : List Char → Option (List Char × List Char)
  | [] => none
  | c :: cs => if c = sep then some ([], cs) else (cut sep cs).map fun p => (c :: p.1, p.2)

/-- The digits' number, which has at least one. -/
def digits : List Char → Option Nat
  | [] => none
  | cs => cs.foldl (fun n c => n.bind fun n =>
    if c.isDigit then some (10 * n + (c.toNat - '0'.toNat)) else none) (some 0)

/-- `strconv.Atoi`: a 64-bit number, with or without a sign. -/
def atoi (cs : List Char) : Option Int :=
  let n : Option Int :=
    match cs with
    | '-' :: cs => (digits cs).map fun n => -(n : Int)
    | '+' :: cs => (digits cs).map fun n => (n : Int)
    | cs => (digits cs).map fun n => (n : Int)
  n.filter fun n => -2 ^ 63 ≤ n ∧ n < 2 ^ 63

/-- A retention given at deployment: `<shortest days>/<longest days>/<basis>`. -/
def retentionOf (raw : String) : Option Retention :=
  match cut '/' raw.toList with
  | none => none
  | some (lo, rest) =>
    match cut '/' rest with
    | none => none
    | some (hi, basis) =>
      match atoi (trimSpace lo), atoi (trimSpace hi), String.ofList (trimSpace basis) with
      | some lo, some hi, basis =>
        if lo ≤ 0 ∨ hi < lo ∨ basis = "" then none
        else some { minDays := lo, maxDays := hi, basis := basis }
      | _, _, _ => none

theorem atoi_lt {cs : List Char} {n : Int} (h : atoi cs = some n) : n < 2 ^ 63 := by
  unfold atoi at h
  rw [filter_eq_some_iff] at h
  simpa using (of_decide_eq_true h.2).2

variable {r : Retention}

theorem retentionOf_accepts {raw : String} (h : retentionOf raw = some r) :
    r.pending = false ∧ 0 < r.minDays ∧ r.minDays ≤ r.maxDays ∧ r.minDays < 2 ^ 63 ∧
      r.basis ≠ "" := by
  unfold retentionOf at h
  split at h
  · cases h
  split at h
  · cases h
  split at h
  next lo hi basis hlo hhi =>
    split at h <;> cases h
    rename_i hok
    have hlt := atoi_lt hlo
    simp only [not_or, Int.not_le, Int.not_lt] at hok
    exact ⟨rfl, hok.1, hok.2.1, hlt, hok.2.2⟩
  cases h

/-! ## Destroy -/

/-- What a class declares of its retention, as the destruction reads it. -/
def Class.holdClass (c : Class) : HoldClass where
  category :=
    match c.category with
    | .completedHistory => .completed
    | .auditEvidence => .audit
    | _ => .other
  residenceDays := if c.residenceDays = never then none else some c.residenceDays
  minDays := c.retention.minDays
  pending := c.retention.pending
  erasable := c.erasable

/-- What one transaction of Destroy reads: the time, the unit's row, the holds and the approvals. -/
structure DestroyRead where
  now : Int
  unit : Option UnitRow
  holds : List Hold
  approvals : List Approval

inductive DestroyAnswer where
  -- the unit could not be read
  | missing
  | openUnit
  | noEvidence
  -- it is destroyed already, and its data is deleted again
  | purgedAgain
  -- what holds it back
  | heldBack (why : List String)
  -- the deciding transaction marks it destroyed
  | destroyed
deriving DecidableEq, Repr

/-- What holds the destruction back, by what a transaction reads. -/
def DestroyRead.reasons (cfg : HoldConfig) (unit : String) (r : DestroyRead) (u : UnitRow) :
    List String :=
  destroyReasons cfg r.now u (holdsOn r.holds unit u.class u.members)
    (approvedFor r.approvals unit u)

/-- Destroy; `evidence` says whether there is a writer for it. -/
def destroy (cfg : HoldConfig) (evidence : Bool) (unit : String) (first decides : DestroyRead) :
    DestroyAnswer :=
  match first.unit with
  | none => .missing
  | some u =>
    if u.state = .destroyed then .purgedAgain
    else if u.state = .open then .openUnit
    else if first.reasons cfg unit u ≠ [] then .heldBack (first.reasons cfg unit u)
    else if evidence = false then .noEvidence
    else
      match decides.unit with
      | none => .missing
      | some cur =>
        if cur.state = .destroyed ∨ cur.state = .open then .heldBack ["retention_not_due"]
        else if decides.reasons cfg unit cur ≠ [] then
          .heldBack (decides.reasons cfg unit cur)
        else .destroyed

/-- What a unit that is destroyed was found to be, in the transaction that decides. -/
theorem destroy_decides {cfg : HoldConfig} {evidence : Bool} {unit : String}
    {first decides : DestroyRead} (h : destroy cfg evidence unit first decides = .destroyed) :
    ∃ u, decides.unit = some u ∧ decides.reasons cfg unit u = [] := by
  unfold destroy at h
  split at h
  · cases h
  split_ifs at h
  split at h
  · cases h
  rename_i cur hcur
  split_ifs at h with hstate hreasons
  exact ⟨cur, hcur, Decidable.not_not.1 hreasons⟩

/-- What nothing holds back is due, by the duration, and allowed. -/
theorem destroyReasons_nil {cfg : HoldConfig} {now : Int} {u : UnitRow} {holds : Nat}
    {approved : Bool} (h : destroyReasons cfg now u holds approved = []) :
    ((cfg.classes u.class).getD {}).pending = false ∧ holds = 0 ∧ approved = true ∧
      ∃ anchor, u.anchor = some anchor ∧
        anchor + duration ((cfg.classes u.class).getD {}).minDays ≤ now := by
  unfold destroyReasons at h
  dsimp only at h
  split at h
  · cases h
  rename_i hdue
  split at h
  next hplan =>
    obtain ⟨-, -, -, hpending, hholds, happroved⟩ := plan_destroy hplan
    dsimp only at hpending hholds happroved
    refine ⟨hpending, hholds, happroved, ?_⟩
    rw [hpending] at hdue
    simp only [true_and, Bool.not_eq_false, any_eq_true] at hdue
    obtain ⟨anchor, hanchor, hle⟩ := hdue
    exact ⟨anchor, hanchor, (of_decide_eq_true hle).2⟩
  split at h
  · next hreasons => exact absurd h hreasons
  cases h

/-- The number of whole days that 64-bit nanoseconds hold. -/
def maxDays : Int := 106751

/-- The duration of days is that of the days themselves, or less. -/
theorem duration_of_le {days : Int} (hpos : 0 < days) (hle : days ≤ maxDays) :
    duration days = days * day := by
  unfold duration
  unfold maxDays at hle
  apply Int.bmod_eq_of_le
  · unfold day
    omega
  unfold day
  omega

theorem duration_lt {days : Int} (hlt : maxDays < days) : duration days < days * day := by
  have hbound : duration days < (2 ^ 64 + 1) / 2 := by
    unfold duration
    exact Int.bmod_lt (by decide)
  have hhalf : ((2 ^ 64 + 1) / 2 : Int) = 2 ^ 63 := by decide
  have hlarge : (2 ^ 63 : Int) < days * day := by
    unfold day
    unfold maxDays at hlt
    omega
  omega

/-! ## The retention of a class -/

def orders (r : Retention) : Class where
  name := "orders"
  category := .completedHistory
  root :=
    { name := "orders", pk := "id",
      columns := [("id", .uuid), ("done_at", .timestamptz), ("created_at", .timestamptz)] }
  anchor := "done_at"
  created := "created_at"
  terminal := "r.done_at IS NOT NULL"
  residenceDays := 90
  retention := r
  routes := [.postgres]
  schemaVersion := "1"
  holdOperation := "orders.hold"
  approveOperation := "orders.approve"

/-- The declaration is accepted with every retention that is. -/
theorem orders_check (hpending : r.pending = false) (hmin : 0 < r.minDays)
    (hmax : r.minDays ≤ r.maxDays) (hbasis : r.basis ≠ "") : (orders r).check 90 [] = [] := by
  have hretention : (orders r).checkRetention = [] := by
    simp only [Class.checkRetention, List.append_eq_nil_iff, errorIf_eq_nil]
    refine ⟨⟨⟨?_, rfl⟩, rfl⟩, rfl⟩
    simp only [orders, hpending, hbasis, true_and, or_false, decide_eq_false_iff_not]
    omega
  -- the rest does not look at the retention
  have htiering : (orders {}).checkTiering 90 = [] := by decide
  have htables : ∀ t ∈ (orders {}).tables, Class.checkTable [] t = [] := by decide
  have hcolumns : (orders {}).checkColumns = [] := by decide
  exact Class.check_eq_nil.2 ⟨htiering, hretention, htables, by simp [orders], by simp [orders],
    hcolumns⟩

/-- A unit of orders that was finished at `anchor`, released, with an approval and no hold. -/
def finished (anchor now : Int) : DestroyRead where
  now := now
  unit := some { «class» := "orders", state := .released, members := ["1"], anchor := some anchor }
  holds := []
  approvals := [{ id := "a", scope := ⟨.unit, "u"⟩ }]

def ordersConfig (r : Retention) : HoldConfig where
  classes := fun name => if name = "orders" then some (orders r).holdClass else none
  n := 90 * day
  grace := 7 * day

theorem orders_destroyed (hpending : r.pending = false) {anchor now : Int}
    (hanchor : anchor ≠ zeroTime) (hdue : anchor + duration r.minDays ≤ now) :
    destroy (ordersConfig r) true "u" (finished anchor now) (finished anchor now) = .destroyed := by
  have hreasons : ∀ u, (finished anchor now).unit = some u →
      (finished anchor now).reasons (ordersConfig r) "u" u = [] := by
    rintro u ⟨⟩
    simp only [DestroyRead.reasons, destroyReasons, ordersConfig, finished, if_true,
      getD_some, Class.holdClass, orders, hpending, any_some]
    rw [if_neg (by simp [hanchor, hdue])]
    rfl
  have hnone := hreasons _ rfl
  simp only [destroy, show (finished anchor now).unit = some _ from rfl, hnone]
  rfl

/-- **A unit is destroyed only past its retention**, for a configured retention of at most 106751
days and for no longer one.  For such a retention: whatever class has it or a pending one, whatever
the unit and the moments at which Destroy reads, a unit that Destroy marks has its anchor the whole
number of days, of 86400 seconds, before the time of the transaction that decides; the class's
retention is not pending; no live hold covers the unit, and an approval does. -/
theorem destroyed_only_past_its_retention_iff {raw : String} {r : Retention}
    (hraw : retentionOf raw = some r) :
    (∀ (c : Class) (n : Int) (registries : List String), c.check n registries = [] →
      (c.retention.pending = false → c.retention = r) →
      ∀ (cfg : HoldConfig) (evidence : Bool) (unit : String) (first decides : DestroyRead),
        (∀ u, decides.unit = some u → cfg.classes u.class = some c.holdClass) →
        destroy cfg evidence unit first decides = .destroyed →
        ∃ u anchor, decides.unit = some u ∧ u.anchor = some anchor ∧
          anchor + r.minDays * day ≤ decides.now ∧ c.retention.pending = false ∧
          holdsOn decides.holds unit u.class u.members = 0 ∧
          approvedFor decides.approvals unit u = true) ↔
    r.minDays ≤ maxDays := by
  obtain ⟨hpending, hmin, hmax, hlt, hbasis⟩ := retentionOf_accepts hraw
  constructor
  · intro h
    -- a longer retention is due too early for a unit that was finished in 1970
    by_contra hle
    have hshort : duration r.minDays < r.minDays * day := duration_lt (by omega)
    obtain ⟨u, anchor, hu, hanchor, hdue, -⟩ :=
      h (orders r) 90 [] (orders_check hpending hmin hmax hbasis) (fun _ => rfl) (ordersConfig r)
        true "u" (finished 0 (duration r.minDays)) (finished 0 (duration r.minDays))
        (by rintro u ⟨⟩; rfl) (orders_destroyed hpending (by decide) (by omega))
    cases hu
    cases hanchor
    have hnow : (finished 0 (duration r.minDays)).now = duration r.minDays := rfl
    omega
  intro hle c n registries _ hretention cfg evidence unit first decides hclass hdestroyed
  obtain ⟨u, hu, hreasons⟩ := destroy_decides hdestroyed
  obtain ⟨hdecided, hholds, happroved, anchor, hanchor, hdue⟩ := destroyReasons_nil hreasons
  rw [hclass u hu, getD_some] at hdecided hdue
  refine ⟨u, anchor, hu, hanchor, ?_, hdecided, hholds, happroved⟩
  have hdays : c.holdClass.minDays = r.minDays := congrArg Retention.minDays (hretention hdecided)
  rw [hdays, duration_of_le hmin hle] at hdue
  exact hdue

theorem destroyed_only_past_its_retention_of_seven_years :
    ∃ r, retentionOf "2555/3650/law" = some r ∧ r.minDays ≤ maxDays ∧
      destroy (ordersConfig r) true "u" (finished 0 (2555 * day)) (finished 0 (2555 * day)) =
        .destroyed ∧
      ∃ u anchor, (finished 0 (2555 * day)).unit = some u ∧ u.anchor = some anchor ∧
        anchor + r.minDays * day ≤ 2555 * day ∧ r.pending = false ∧
        holdsOn [] "u" u.class u.members = 0 ∧
        approvedFor [{ id := "a", scope := ⟨.unit, "u"⟩ }] "u" u = true := by
  refine ⟨{ minDays := 2555, maxDays := 3650, basis := "law" }, by decide, by decide, by decide, ?_⟩
  have hraw : retentionOf "2555/3650/law" =
      some { minDays := 2555, maxDays := 3650, basis := "law" } := by decide
  exact (destroyed_only_past_its_retention_iff hraw).2 (by decide)
    (orders { minDays := 2555, maxDays := 3650, basis := "law" }) 90 [] (by decide) (fun _ => rfl)
    (ordersConfig { minDays := 2555, maxDays := 3650, basis := "law" }) true "u"
    (finished 0 (2555 * day)) (finished 0 (2555 * day)) (by rintro u ⟨⟩; rfl) (by decide)

/-- A retention of 106752 days, which the configuration accepts: a unit is destroyed at the moment
of its latest anchor. -/
theorem destroyed_at_its_anchor :
    ∃ r, retentionOf "106752/106752/law" = some r ∧ (orders r).check 90 [] = [] ∧
      destroy (ordersConfig r) true "u" (finished 0 0) (finished 0 0) = .destroyed ∧
      ¬ (0 + r.minDays * day ≤ 0) :=
  ⟨{ minDays := 106752, maxDays := 106752, basis := "law" }, by decide, by decide, by decide,
    by decide⟩

end BeSdk.Tiering
