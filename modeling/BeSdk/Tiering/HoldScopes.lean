import BeSdk.Tiering.Class
import BeSdk.Tiering.Holds

/-!
# The scopes of holds and approvals

`tiering/holds.go`: a hold or an approval is set for a scope of a declared class, and lifted or
withdrawn by one of a class.  Setting one checks the scope (`scopeOf`); lifting one finds it again
in SQL, by a text that is the class, by a unit of the class, and for a record by the pattern
`<class>/%`.

The class stands in that pattern as it is, so that `_`, `%` and `\` in its name have the meaning
they have in a pattern, and the first of the three takes a text for a class whatever kind of scope
it is. `lifts_stay_in_class_iff` says between which classes that matters.  Names without these
three characters keep to themselves (`like_class`), as no name has a slash.
-/

namespace BeSdk.Tiering

open Classes List

inductive HoldError where
  | noClass
  | permissionDenied
  | requestInvalid
  | notFound
deriving DecidableEq, Repr

/-- What the calls see: the declared classes and the units. -/
structure ScopeEnv where
  classes : List Class
  units : String → Option UnitRow

namespace ScopeEnv

variable (env : ScopeEnv) (allowed : String → Bool)

/-- The class of a name, where the subject has its operation. -/
def admitted (operation : Class → String) (cls : String) : Except HoldError Class :=
  match env.classes.find? fun c => c.name = cls with
  | none => .error .noClass
  | some c => if allowed (operation c) then .ok c else .error .permissionDenied

def hold (holds : List Hold) (cls id : String) (scope : Scope) (source reason : String) :
    Except HoldError (List Hold) :=
  (env.admitted allowed Class.holdOperation cls).bind fun _ =>
    if source ∈ holdSources ∧ reason ≠ "" ∧ scopeOf env.units cls scope = true then
      .ok (holds ++ [⟨id, scope, true⟩])
    else .error .requestInvalid

end ScopeEnv

/-- The update of the rows found, which is an error when there is none. -/
def retire {ρ : Type} (found : ρ → Bool) (off : ρ → ρ) (rows : List ρ) :
    Except HoldError (List ρ) :=
  if rows.any found then .ok (rows.map fun r => if found r then off r else r)
  else .error .notFound

/-- The approval is of the class, as a withdrawal finds it. -/
def Approval.of (units : String → Option UnitRow) (cls : String) (a : Approval) : Bool :=
  a.scope.value = cls ∨ a.scope.kind = .unit ∧ (units a.scope.value).any fun u => u.class = cls

namespace ScopeEnv

variable (env : ScopeEnv) (allowed : String → Bool)

def liftHold (holds : List Hold) (cls id : String) : Except HoldError (List Hold) :=
  (env.admitted allowed Class.holdOperation cls).bind fun _ =>
    retire (fun h => h.id = id ∧ h.live = true ∧ h.of env.units cls = true)
      (fun h => { h with live := false }) holds

def withdraw (approvals : List Approval) (cls id : String) : Except HoldError (List Approval) :=
  (env.admitted allowed Class.approveOperation cls).bind fun _ =>
    retire (fun a => a.id = id ∧ a.live = true ∧ a.of env.units cls = true)
      (fun a => { a with live := false }) approvals

/-- The scope was checked for one of the declared classes. -/
def Checked (scope : Scope) : Prop := ∃ c ∈ env.classes, scopeOf env.units c.name scope = true

/-- Rows that changed had a scope of the class. -/
def Within {ρ : Type} (scope : ρ → Scope) (cls : String) (rows rows' : List ρ) : Prop :=
  List.Forall₂ (fun r r' => r' = r ∨ scopeOf env.units cls (scope r) = true) rows rows'

variable {env allowed} {cls : String}

theorem mem_of_admitted {operation : Class → String} {c : Class}
    (h : env.admitted allowed operation cls = .ok c) : c ∈ env.classes ∧ c.name = cls := by
  unfold admitted at h
  split at h
  · cases h
  rename_i c' hfind
  split at h <;> cases h
  exact ⟨mem_of_find?_eq_some hfind, by simpa using find?_some hfind⟩

/-- An update stays in the class when the rows it finds are of the class. -/
theorem within_of_found {ρ : Type} {scope : ρ → Scope} {found : ρ → Bool} {off : ρ → ρ}
    {rows rows' : List ρ} (h : retire found off rows = .ok rows')
    (hfound : ∀ r ∈ rows, found r = true → scopeOf env.units cls (scope r) = true) :
    env.Within scope cls rows rows' := by
  unfold retire at h
  split at h <;> cases h
  rw [Within, forall₂_map_right_iff, forall₂_same]
  intro r hr
  split
  · next hf => exact .inr (hfound r hr hf)
  exact .inl rfl

end ScopeEnv

/-! ## Records of a class -/

theorem eq_of_append_slash {l l' t t' : List Char} (hl : '/' ∉ l) (hl' : '/' ∉ l')
    (h : l ++ '/' :: t = l' ++ '/' :: t') : l = l' := by
  have hbefore : ∀ {l t : List Char}, '/' ∉ l →
      (l ++ '/' :: t).takeWhile (fun c => c ≠ '/') = l := by
    intro l t hl
    have hall : ∀ c ∈ l, decide (c ≠ '/') = true := by
      intro c hc
      refine decide_eq_true ?_
      rintro rfl
      exact hl hc
    rw [takeWhile_append_of_pos hall, takeWhile_cons_of_neg (by simp), append_nil]
  rw [← hbefore hl (t := t), h, hbefore hl']

variable {units : String → Option UnitRow} {cls : String} {scope : Scope}

theorem scopeOf_record_iff (hkind : scope.kind = .record) : scopeOf units cls scope = true ↔
    ∃ root, root ≠ "" ∧ scope.value = cls ++ "/" ++ root := by
  rw [scopeOf, hkind]
  simp only [decide_eq_true_eq, isPrefixOf_iff_prefix, String.toList_append]
  have hslash : "/".length = 1 := rfl
  constructor
  · rintro ⟨⟨t, ht⟩, hlength⟩
    have hvalue : scope.value = cls ++ "/" ++ String.ofList t := by
      rw [← String.toList_inj, ← ht]
      simp
    refine ⟨String.ofList t, ?_, hvalue⟩
    rintro hempty
    rw [hvalue, hempty] at hlength
    exact hlength (by simp [hslash])
  rintro ⟨root, hroot, hvalue⟩
  rw [hvalue]
  refine ⟨⟨root.toList, by simp⟩, ?_⟩
  intro hlength
  rw [String.length_append, String.length_append, hslash] at hlength
  exact hroot (String.length_eq_zero_iff.1 (by omega))

theorem scopeOf_record_inj {cls' : String} (hcls : '/' ∉ cls.toList) (hcls' : '/' ∉ cls'.toList)
    (hkind : scope.kind = .record) (h : scopeOf units cls scope = true)
    (h' : scopeOf units cls' scope = true) : cls = cls' := by
  obtain ⟨root, -, hroot⟩ := (scopeOf_record_iff hkind).1 h
  obtain ⟨root', -, hroot'⟩ := (scopeOf_record_iff hkind).1 h'
  have heq := congrArg String.toList (hroot.symm.trans hroot')
  simp only [String.toList_append, append_assoc] at heq
  exact String.toList_inj.1 (eq_of_append_slash hcls hcls' heq)

/-- The pattern of a name without special characters matches what begins with the name and a
slash. -/
theorem like_class (hplain : ∀ c ∈ cls.toList, ¬ (c = '\\' ∨ c = '%' ∨ c = '_')) (t : List Char) :
    Like.like (cls ++ "/%").toList t = true ↔ cls.toList ++ ['/'] <+: t := by
  have hescape : Like.escape cls.toList = cls.toList := by
    rw [Like.escape, flatMap_congr fun c hc => if_neg (hplain c hc)]
    exact flatMap_singleton' _
  have hpattern : (cls ++ "/%").toList = Like.escape cls.toList ++ ['/', '%'] := by
    rw [hescape, String.toList_append]
    rfl
  rw [hpattern, Like.like_escape_append (by decide)]

theorem name_of_check {c : Class} {n : Int} {registries : List String}
    (h : c.check n registries = []) : '/' ∉ c.name.toList := by
  have htiering := (Class.check_eq_nil.1 h).1
  simp only [Class.checkTiering, append_eq_nil_iff, errorIf_eq_nil,
    decide_eq_false_iff_not] at htiering
  exact fun hslash => htiering.1.1.1 (.inr (.inr hslash))

namespace ScopeEnv

variable {env : ScopeEnv}

variable (env) in
/-- The names and units of two classes are told apart: no unit of the second has the name of the
first for its id, and no record of the second matches the first one's pattern. -/
def Apart (c c' : Class) : Prop :=
  (∀ id u, env.units id = some u → u.class = c'.name → id ≠ c.name) ∧
    ∀ root, root ≠ "" → Like.like (c.name ++ "/%").toList (c'.name ++ "/" ++ root).toList = false

/-- What a lift or a withdrawal finds is of the class, when the classes are told apart. -/
theorem scopeOf_of_found {c : Class} {scope : Scope}
    (hslash : ∀ c ∈ env.classes, '/' ∉ c.name.toList) (hc : c ∈ env.classes)
    (hapart : ∀ c' ∈ env.classes, c.name ≠ c'.name → env.Apart c c') (hchecked : env.Checked scope)
    (hfound : scope.value = c.name ∨
      scope.kind = .unit ∧ (env.units scope.value).any (fun u => u.class = c.name) ∨
      scope.kind = .record ∧ Like.like (c.name ++ "/%").toList scope.value.toList = true) :
    scopeOf env.units c.name scope = true := by
  obtain ⟨c', hc', hscope⟩ := hchecked
  by_cases hname : c.name = c'.name
  · rw [hname]
    exact hscope
  obtain ⟨hunit, hrecord⟩ := hapart c' hc' hname
  cases hkind : scope.kind with
  | «class» =>
    simp only [scopeOf, hkind, decide_eq_true_eq] at hscope ⊢
    rcases hfound with hvalue | ⟨h, -⟩ | ⟨h, -⟩
    · exact hvalue
    · cases hkind.symm.trans h
    cases hkind.symm.trans h
  | unit =>
    simp only [scopeOf, hkind] at hscope ⊢
    rcases hfound with hvalue | ⟨-, h⟩ | ⟨h, -⟩
    · -- the unit is of the other class, and has this one's name
      obtain ⟨u, hu, hclass⟩ := (Option.any_eq_true _ _).1 hscope
      exact absurd hvalue (hunit _ u hu (of_decide_eq_true hclass))
    · exact h
    cases hkind.symm.trans h
  | record =>
    obtain ⟨root, hroot, hvalue⟩ := (scopeOf_record_iff hkind).1 hscope
    rcases hfound with h | ⟨h, -⟩ | ⟨-, h⟩
    · refine absurd ?_ (hslash c hc)
      rw [← h, hvalue]
      simp
    · cases hkind.symm.trans h
    rw [hvalue, hrecord root hroot] at h
    cases h

theorem admitted_of_mem {c : Class} (hc : c ∈ env.classes) (operation : Class → String) :
    ∃ c', env.admitted (fun _ => true) operation c.name = .ok c' := by
  cases hfind : env.classes.find? fun c' => c'.name = c.name with
  | none => exact absurd (find?_eq_none.1 hfind c hc) (by simp)
  | some c' =>
    refine ⟨c', ?_⟩
    rw [admitted, hfind]
    rfl

theorem liftHold_found {c : Class} (hc : c ∈ env.classes) {scope : Scope}
    (hfound : (Hold.mk "h" scope true).of env.units c.name = true) :
    env.liftHold (fun _ => true) [⟨"h", scope, true⟩] c.name "h" = .ok [⟨"h", scope, false⟩] := by
  obtain ⟨c', hc'⟩ := admitted_of_mem hc Class.holdOperation
  simp [liftHold, hc', Except.bind, retire, hfound]

/-- Lifting a hold and withdrawing an approval change only what is of the class, whatever was set
for the declared classes, exactly when every two of these are told apart. -/
theorem lifts_stay_in_class_iff (env : ScopeEnv)
    (hcheck : ∀ c ∈ env.classes, ∃ n registries, c.check n registries = []) :
    (∀ allowed holds approvals cls id,
      (∀ h ∈ holds, env.Checked h.scope) →
      (∀ a ∈ approvals, env.Checked a.scope ∧ a.scope.kind ≠ .record) →
      (∀ holds', env.liftHold allowed holds cls id = .ok holds' →
        env.Within Hold.scope cls holds holds') ∧
      (∀ approvals', env.withdraw allowed approvals cls id = .ok approvals' →
        env.Within Approval.scope cls approvals approvals')) ↔
    ∀ c ∈ env.classes, ∀ c' ∈ env.classes, c.name ≠ c'.name → env.Apart c c' := by
  have hslash : ∀ c ∈ env.classes, '/' ∉ c.name.toList := by
    intro c hc
    obtain ⟨n, registries, h⟩ := hcheck c hc
    exact name_of_check h
  constructor
  · intro hwithin c hc c' hc' hname
    have hone : ∀ scope, env.Checked scope → (Hold.mk "h" scope true).of env.units c.name = true →
        scopeOf env.units c.name scope = true := by
      intro scope hchecked hfound
      have hstay := (hwithin (fun _ => true) [⟨"h", scope, true⟩] [] c.name "h"
        (by simpa using hchecked) (by simp)).1 _ (liftHold_found hc hfound)
      simpa [Within] using hstay
    constructor
    · rintro id u hu hclass rfl
      have hown := hone ⟨.unit, c.name⟩ ⟨c', hc', by simp [scopeOf, hu, hclass]⟩ (by simp [Hold.of])
      simp only [scopeOf, hu, Option.any_some, decide_eq_true_eq] at hown
      exact hname (hown.symm.trans hclass)
    intro root hroot
    rw [← Bool.not_eq_true]
    intro hlike
    have hrecord : scopeOf env.units c'.name ⟨.record, c'.name ++ "/" ++ root⟩ = true :=
      (scopeOf_record_iff rfl).2 ⟨root, hroot, rfl⟩
    have hown := hone ⟨.record, c'.name ++ "/" ++ root⟩ ⟨c', hc', hrecord⟩
      (by simp only [Hold.of, hlike]; simp)
    exact hname (scopeOf_record_inj (hslash c hc) (hslash c' hc') rfl hown hrecord)
  intro hapart allowed holds approvals cls id hholds happrovals
  constructor
  · intro holds' h
    unfold liftHold at h
    cases hc : env.admitted allowed Class.holdOperation cls with
    | error e => rw [hc] at h; cases h
    | ok c =>
      obtain ⟨hmem, rfl⟩ := mem_of_admitted hc
      rw [hc] at h
      refine within_of_found h fun r hr hfound => ?_
      have hof := (of_decide_eq_true hfound).2.2
      exact scopeOf_of_found hslash hmem (hapart c hmem) (hholds r hr) (of_decide_eq_true hof)
  intro approvals' h
  unfold withdraw at h
  cases hc : env.admitted allowed Class.approveOperation cls with
  | error e => rw [hc] at h; cases h
  | ok c =>
    obtain ⟨hmem, rfl⟩ := mem_of_admitted hc
    rw [hc] at h
    refine within_of_found h fun r hr hfound => ?_
    have hof := (of_decide_eq_true hfound).2.2
    exact scopeOf_of_found hslash hmem (hapart c hmem) (happrovals r hr).1
      ((of_decide_eq_true hof).imp_right .inl)

def oneTable (name : String) : Class where
  name := name
  category := .completedHistory
  root := { name := "orders", pk := "id", columns := [("id", .text), ("done_at", .timestamptz)] }
  anchor := "done_at"
  created := "done_at"
  terminal := "r.done_at IS NOT NULL"
  residenceDays := 90
  retention := { minDays := 3650, maxDays := 3650, basis := "law" }
  routes := [.postgres]
  schemaVersion := "1"
  holdOperation := "hold"
  approveOperation := "approve"

def twoClasses (name name' : String) : ScopeEnv := ⟨[oneTable name, oneTable name'], fun _ => none⟩

theorem plain_of_all {cs : List Char}
    (h : (cs.all fun d => !(d == '\\' || d == '%' || d == '_')) = true) :
    ∀ d ∈ cs, ¬ (d = '\\' ∨ d = '%' ∨ d = '_') := by
  intro d hd
  simpa [and_assoc] using all_eq_true.1 h d hd

theorem plain_names_stay_in_class :
    (∀ c ∈ (twoClasses "orders" "notes").classes, c.check 30 [] = []) ∧
    ∀ allowed holds approvals cls id,
      (∀ h ∈ holds, (twoClasses "orders" "notes").Checked h.scope) →
      (∀ a ∈ approvals, (twoClasses "orders" "notes").Checked a.scope ∧ a.scope.kind ≠ .record) →
      (∀ holds', (twoClasses "orders" "notes").liftHold allowed holds cls id = .ok holds' →
        (twoClasses "orders" "notes").Within Hold.scope cls holds holds') ∧
      (∀ approvals', (twoClasses "orders" "notes").withdraw allowed approvals cls id =
          .ok approvals' →
        (twoClasses "orders" "notes").Within Approval.scope cls approvals approvals') := by
  have hcheck : ∀ c ∈ (twoClasses "orders" "notes").classes, c.check 30 [] = [] := by decide
  refine ⟨hcheck, (lifts_stay_in_class_iff (twoClasses "orders" "notes") ?_).2 ?_⟩
  · exact fun c hc => ⟨30, [], hcheck c hc⟩
  have hapart : ∀ c c' : Class, (∀ d ∈ c.name.toList, ¬ (d = '\\' ∨ d = '%' ∨ d = '_')) →
      '/' ∉ c.name.toList → '/' ∉ c'.name.toList → c.name ≠ c'.name →
      (twoClasses "orders" "notes").Apart c c' := by
    intro c c' hplain hslash hslash' hname
    refine ⟨nofun, fun root _ => ?_⟩
    rw [← Bool.not_eq_true, like_class hplain]
    rintro ⟨t, ht⟩
    simp only [String.toList_append, append_assoc] at ht
    exact hname (String.toList_inj.1 (eq_of_append_slash hslash hslash' ht))
  intro c hc c' hc' hname
  simp only [twoClasses, mem_cons, not_mem_nil, or_false] at hc hc'
  rcases hc with rfl | rfl <;> rcases hc' with rfl | rfl
  · exact absurd rfl hname
  · exact hapart _ _ (plain_of_all (by decide)) (by decide) (by decide) hname
  · exact hapart _ _ (plain_of_all (by decide)) (by decide) (by decide) hname
  exact absurd rfl hname

/-- A lift of `order_line` lifts the hold on the record `line/7` of `order`. -/
theorem another_class_lifted :
    (∀ c ∈ (twoClasses "order" "order_line").classes, c.check 30 [] = []) ∧
    (twoClasses "order" "order_line").hold (fun _ => true) [] "order" "h"
      (recordScope "order" "line/7") "legal" "case 12" =
        .ok [⟨"h", recordScope "order" "line/7", true⟩] ∧
    (twoClasses "order" "order_line").liftHold (fun _ => true)
      [⟨"h", recordScope "order" "line/7", true⟩] "order_line" "h" =
        .ok [⟨"h", recordScope "order" "line/7", false⟩] ∧
    scopeOf (fun _ => none) "order_line" (recordScope "order" "line/7") = false := by
  refine ⟨by decide, rfl, ?_, by decide⟩
  exact @liftHold_found (twoClasses "order" "order_line") (oneTable "order_line")
    (by simp [twoClasses]) _ (by decide)

end ScopeEnv
end BeSdk.Tiering
