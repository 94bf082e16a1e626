import BeSdk.Events.Resend

/-!
# What a redelivery delivers

A request that is answered without an error promises, for each partition it lists neither as beyond
the retention nor as ahead, that every row published when it arrived and after the asked position
was sent again, in position order (`Resending.Delivered`).

## The argument

Three moments count.

* **Arrival to judgement.**  A row deleted in between, or before, is noted (`Noted`).  When the
  partition is not beyond the retention no note is after the start, so no row after the start was
  deleted: all that are due are still there.
* **Judgement to last read.**  Each read returns the published rows after the last one sent, in
  order; what a full batch leaves out comes after it (`mem_take_or_lt`), so it is found by the next
  read, if it is still there then.  Nothing but a purge takes it away.
* **After the last read.**  The rows are in memory.

`Resending.Ok` is the invariant of one request: what is sent and read is in order, and what is due
is among it or comes later and is still there (`covered`).  The purge keeps it where it deletes no
row that a request has still to read (`SparesUnread`).
-/

namespace BeSdk.Events

open Runs List Option Function Nat

variable {E : Type*}

/-! ## Asked positions -/

/-- The position asked for in a partition: the last one of this implementation instance. -/
def askedIn (impl : String) (n : Nat) : Option Point → List PartitionFrom → Option Point
  | asked, [] => asked
  | asked, f :: rest =>
    match f.after with
    | none => askedIn impl n asked rest
    | some a =>
      if a.impl = impl ∧ f.partition = n then
        askedIn impl n ((parseEpoch a.epoch).toOption.map (⟨·, a.seq.toNat⟩)) rest
      else askedIn impl n asked rest

def ResendRequest.asked (req : ResendRequest) (impl : String) (n : Nat) : Option Point :=
  askedIn impl n none req.from_

theorem int64_le (n : UInt64) : int64 n ≤ n.toNat := by
  unfold int64
  split <;> omega

/-- What is after the asked position is after the start: as an `int64` a sequence is not larger. -/
theorem startsOf_asked {impl : String} {partitions : Int} {n : Nat} {from_ : List PartitionFrom}
    {start start' : Nat → Option Start} {asked : Option Point}
    (hstarts : startsOf impl partitions start from_ = .ok start')
    (h : ∀ pt, asked.all (· < pt) = true → isAfter (start n) pt = true) (pt : Point)
    (hpt : (askedIn impl n asked from_).all (· < pt) = true) : isAfter (start' n) pt = true := by
  induction from_ generalizing start asked with
  | nil =>
    obtain rfl := by simpa [startsOf] using hstarts
    exact h pt hpt
  | cons f rest ih =>
    rw [startsOf] at hstarts
    rw [askedIn] at hpt
    split at hstarts
    · simp at hstarts
    · cases hafter : f.after with
      | none =>
        rw [hafter] at hstarts hpt
        exact ih hstarts h hpt
      | some a =>
        rw [hafter] at hstarts hpt
        dsimp only at hstarts hpt
        split at hstarts
        next hother =>
          rw [if_neg fun hboth => hother hboth.1] at hpt
          exact ih hstarts h hpt
        rename_i himpl
        rw [not_not] at himpl
        cases hepoch : parseEpoch a.epoch with
        | error message => simp [hepoch] at hstarts
        | ok e =>
          rw [hepoch] at hstarts hpt
          by_cases hn : f.partition = n
          · rw [if_pos ⟨himpl, hn⟩] at hpt
            refine ih hstarts (fun pt hbelow => ?_) hpt
            have hlt : (⟨e, a.seq.toNat⟩ : Point) < pt := by simpa
              [Except.toOption] using hbelow
            have hle := int64_le a.seq
            subst hn
            simp only [update_self, isAfter, all_some, Start.before, decide_eq_true_eq]
            rcases Point.lt_iff.1 hlt with hlt | ⟨heq, hlt⟩
            · exact .inl hlt
            refine .inr ⟨heq, ?_⟩
            dsimp only at hlt
            omega
          rw [if_neg fun hboth => hn hboth.2] at hpt
          refine ih hstarts (fun pt hbelow => ?_) hpt
          rw [update_of_ne fun heq => hn heq.symm]
          exact h pt hbelow

theorem before_start {pt pt' : Point} : pt.start.before pt' = true ↔ pt < pt' := by
  simp [Start.before, Point.start, Point.lt_iff]

theorem Start.before_of_lt {a : Start} {pt pt' : Point} (h : a.before pt = true) (hlt : pt < pt') :
    a.before pt' = true := by
  simp only [Start.before, decide_eq_true_eq] at h ⊢
  rcases h with h | ⟨heq, h⟩ <;> rcases Point.lt_iff.1 hlt with hlt | ⟨heq', hlt⟩
  · exact .inl (h.trans hlt)
  · exact .inl (heq' ▸ h)
  · exact .inl (heq ▸ hlt)
  exact .inr ⟨heq.trans heq', by omega⟩

/-! ## The notes -/

/-- Every deleted row is at or before the note of its partition. -/
def Noted (s : State E) (noted : StreamPart → Option Point) : Prop :=
  ∀ (o : Nat) (r : Row E) (pt : Point), s.rows[o]? = some r → r.pos = some pt → r.purged = true →
    ∃ top, noted r.part = some top ∧ pt ≤ top

theorem le_topDeleted (rows : List (Row E)) (p : StreamPart) (ords : List Nat) {top : Option Point}
    (cur : Point) (htop : top = some cur) :
    ∃ top', topDeleted rows p top ords = some top' ∧ cur ≤ top' := by
  induction ords generalizing top cur with
  | nil => exact ⟨cur, htop, le_refl cur⟩
  | cons ord ords ih =>
    rw [topDeleted]
    split
    · exact ih cur htop
    rename_i pt _
    split
    next hless =>
      obtain ⟨top', htop', hle⟩ := ih pt rfl
      rw [htop, all_some, decide_eq_true_eq] at hless
      exact ⟨top', htop', hless.le.trans hle⟩
    exact ih cur htop

theorem le_topDeleted_of_mem {rows : List (Row E)} {ords : List Nat} {o : Nat} {r : Row E}
    {pt : Point} (hmem : o ∈ ords) (hr : rows[o]? = some r) (hpos : r.pos = some pt)
    (top : Option Point) : ∃ top', topDeleted rows r.part top ords = some top' ∧ pt ≤ top' := by
  induction ords generalizing top with
  | nil => simp at hmem
  | cons ord ords ih =>
    rw [topDeleted]
    by_cases heq : o = ord
    · subst heq
      have hfound : ((rows[o]?).filter (·.part = r.part)).bind (·.pos) = some pt := by
        simp [hr, Option.filter, hpos]
      rw [hfound]
      dsimp only
      split
      · exact le_topDeleted _ _ _ _ rfl
      rename_i hnot
      cases htop : top with
      | none => simp [htop] at hnot
      | some cur =>
        rw [htop, all_some, decide_eq_true_eq] at hnot
        obtain ⟨top', htop', hle⟩ := le_topDeleted rows r.part ords cur rfl
        exact ⟨top', htop', (not_lt.1 hnot).trans hle⟩
    have hmem : o ∈ ords := (mem_cons.1 hmem).resolve_left heq
    split
    · exact ih hmem _
    split
    · exact ih hmem _
    exact ih hmem _

theorem le_notePurged {noted : StreamPart → Option Point} {rows : List (Row E)} {p : StreamPart}
    {cur : Point} (a : Action E) (hcur : noted p = some cur) :
    ∃ top, notePurged noted rows a p = some top ∧ cur ≤ top := by
  cases a with
  | purge ords =>
    simp only [notePurged]
    split
    · exact ⟨cur, hcur, le_refl cur⟩
    rename_i top _
    split
    next hless =>
      rw [hcur, all_some, decide_eq_true_eq] at hless
      exact ⟨top, rfl, hless.le⟩
    exact ⟨cur, hcur, le_refl cur⟩
  | _ => exact ⟨cur, hcur, le_refl cur⟩

theorem Noted.step {s s' : State E} {noted : StreamPart → Option Point} {a : Action E} (h : Inv s)
    (hnoted : Noted s noted) (hstep : step s a = some s') :
    Noted s' (notePurged noted s.rows a) := by
  intro o r' pt hr' hpos hpurged
  obtain ⟨r, hr, hpart, hpos₀, hwhy⟩ := step_purged h hstep hr' hpurged
  rw [← hpart]
  rw [hpos] at hpos₀
  rcases hwhy with hgone | ⟨ords, rfl, hmem⟩
  · obtain ⟨cur, hcur, hle⟩ := hnoted o r pt hr hpos₀ hgone
    obtain ⟨top, htop, hle'⟩ := le_notePurged a hcur
    exact ⟨top, htop, hle.trans hle'⟩
  obtain ⟨top, htop, hle⟩ := le_topDeleted_of_mem hmem hr hpos₀ none
  simp only [notePurged, htop]
  cases hcur : noted r.part with
  | none => exact ⟨top, rfl, hle⟩
  | some cur =>
    rw [all_some]
    split
    · exact ⟨top, rfl, hle⟩
    rename_i hnot
    rw [decide_eq_true_eq] at hnot
    exact ⟨cur, rfl, hle.trans (not_lt.1 hnot)⟩

/-! ## One request -/

namespace Resending

variable {s s' : State E} {x : Resending E}

def todo (x : Resending E) : List Sent :=
  match x.stage with
  | .sending todo _ => todo
  | _ => []

def more (x : Resending E) : Bool :=
  match x.stage with
  | .sending _ more => more
  | _ => true

/-- A row that was published when the request arrived, after the start of its partition. -/
def Due (x : Resending E) (n : Nat) (y : Sent) : Prop :=
  ∃ r, x.arrived[y.ord]? = some r ∧ r.part = ⟨x.request.stream, n⟩ ∧ r.published = true ∧
    r.pos = some y.pos ∧ isAfter (x.start n) y.pos = true

/-- Everything due in the partition was sent, in position order. -/
def Delivered (s : State E) (x : Resending E) (n : Nat) : Prop :=
  (x.sent n).Pairwise (fun y z => y.pos < z.pos) ∧
    (∀ y ∈ x.sent n, s.table.Numbered y.ord ⟨x.request.stream, n⟩ y.pos) ∧
    ∀ y, x.Due n y → y ∈ x.sent n

def Kept (s : State E) (y : Sent) : Prop := ∃ r, s.rows[y.ord]? = some r ∧ r.purged = false

/-- What is due in the partition it is at was sent or read, or comes later and is still there. -/
def Covered (s : State E) (x : Resending E) : Prop :=
  ∀ y, x.Due x.n y → y ∈ x.sent x.n ++ x.todo ∨
    x.more = true ∧ Kept s y ∧ ∀ z ∈ x.sent x.n ++ x.todo, z.pos < y.pos

structure Ok (s : State E) (x : Resending E) : Prop where
  arrived : ∀ (o : Nat) (r : Row E), x.arrived[o]? = some r → ∃ r', s.rows[o]? = some r' ∧
    r.Later r'
  done : ∀ m < x.n, m ∉ x.beyond → m ∉ x.ahead → x.Delivered s m
  later : ∀ m, x.n < m → x.sent m = []
  order : (x.sent x.n ++ x.todo).Pairwise fun y z => y.pos < z.pos
  numbered : ∀ y ∈ x.sent x.n ++ x.todo, s.table.Numbered y.ord x.part y.pos
  high : ∀ pt, isAfter x.after pt = true → ∀ y ∈ x.sent x.n, y.pos < pt
  low : ∀ pt, isAfter (x.start x.n) pt = true → (∀ y ∈ x.sent x.n, y.pos < pt) →
    isAfter x.after pt = true
  fresh : x.stage = .judging → x.sent x.n = []
  covered : x.stage ≠ .judging → x.n ∉ x.beyond → x.Covered s

def Unread (x : Resending E) (p : StreamPart) (pt : Point) : Prop :=
  x.stage ≠ .judging ∧ x.more = true ∧ p = x.part ∧ isAfter x.after pt = true ∧
    ∀ y ∈ x.todo, y.pos < pt

theorem Delivered.step {a : Action E} (h : Inv s) (hstep : step s a = some s') {n : Nat}
    (hx : x.Delivered s n) : x.Delivered s' n :=
  ⟨hx.1, fun y hy => (step_numbered h hstep).1 _ _ _ (hx.2.1 y hy), hx.2.2⟩

/-- The outbox goes on without deleting what the request has still to read. -/
theorem Ok.step {a : Action E} (h : Inv s) (hx : x.Ok s)
    (hspared : ∀ ords, a = .purge ords → ∀ o ∈ ords, ∀ (r : Row E) (pt : Point),
      s.rows[o]? = some r → r.pos = some pt → ¬ x.Unread r.part pt)
    (hstep : step s a = some s') : x.Ok s' where
  arrived o r hr := by
    obtain ⟨r', hr', hlater⟩ := hx.arrived o r hr
    obtain ⟨r'', hr'', hlater', -⟩ := step_later h hstep hr'
    exact ⟨r'', hr'', hlater.trans hlater'⟩
  done m hm hbeyond hahead := (hx.done m hm hbeyond hahead).step h hstep
  later := hx.later
  order := hx.order
  numbered y hy := (step_numbered h hstep).1 _ _ _ (hx.numbered y hy)
  high := hx.high
  low := hx.low
  fresh := hx.fresh
  covered hstage hbeyond y hdue := by
    rcases hx.covered hstage hbeyond y hdue with hmem | ⟨hmore, ⟨r, hr, hkept⟩, hlast⟩
    · exact .inl hmem
    refine .inr ⟨hmore, ?_, hlast⟩
    obtain ⟨r', hr', hlater, hwhy⟩ := step_later h hstep hr
    refine ⟨r', hr', ?_⟩
    by_contra hgone
    rw [Bool.not_eq_false] at hgone
    rcases hwhy hgone with hgone₀ | ⟨ords, rfl, hmem⟩
    · simp [hkept] at hgone₀
    obtain ⟨r₀, hr₀, hpart, -, hpos, hafter⟩ := hdue
    obtain ⟨r₁, hr₁, hlater₀⟩ := hx.arrived _ r₀ hr₀
    obtain rfl : r₁ = r := by rwa [hr, some.injEq, eq_comm] at hr₁
    refine hspared ords rfl _ hmem r₁ y.pos hr (hlater₀.pos _ hpos) ⟨hstage, hmore, ?_, ?_, ?_⟩
    · rw [hlater₀.part, hpart]
      rfl
    · exact hx.low _ hafter fun z hz => hlast z (mem_append_left _ hz)
    exact fun z hz => hlast z (mem_append_right _ hz)

/-- The next partition, when this one is listed or delivered. -/
theorem Ok.next (hx : x.Ok s) (hthis : x.n ∉ x.beyond → x.n ∉ x.ahead → x.Delivered s x.n) :
    x.next.Ok s where
  arrived := hx.arrived
  done m hm hbeyond hahead := by
    rcases Nat.lt_succ_iff_lt_or_eq.1 hm with hlt | rfl
    · exact hx.done m hlt hbeyond hahead
    exact hthis hbeyond hahead
  later m hm := hx.later m (lt_of_succ_lt hm)
  order := by simp [Resending.next, todo, hx.later _ (lt_succ_self _)]
  numbered := by simp [Resending.next, todo, hx.later _ (lt_succ_self _)]
  high := by simp [Resending.next, hx.later _ (lt_succ_self _)]
  low _ hpt _ := hpt
  fresh _ := hx.later _ (lt_succ_self _)
  covered hstage := absurd rfl hstage

/-- The request stays at its partition with another stage. -/
theorem Ok.toSending (hx : x.Ok s) {todo : List Sent} {more : Bool}
    (horder : (x.sent x.n ++ todo).Pairwise fun y z => y.pos < z.pos)
    (hnumbered : ∀ y ∈ x.sent x.n ++ todo, s.table.Numbered y.ord x.part y.pos)
    (hcovered : x.n ∉ x.beyond → Covered s { x with stage := .sending todo more }) :
    (x.loop todo more).Ok s := by
  unfold loop
  split
  next hend =>
    obtain ⟨rfl, rfl⟩ := hend
    refine hx.next fun hbeyond _ => ⟨?_, ?_, fun y hy => ?_⟩
    · simpa using horder
    · simpa [Resending.part] using hnumbered
    -- all was read, and all that was read is sent
    simpa [Covered, Resending.todo, Resending.more] using hcovered hbeyond y hy
  exact
    { hx with
      order := horder
      numbered := hnumbered
      fresh := fun hstage => by simp at hstage
      covered := fun _ hbeyond => hcovered hbeyond }

theorem Ok.judged (hx : x.Ok s) (htodo : x.todo = []) (hcovered : x.n ∉ x.beyond →
      Covered s { x with stage := .sending [] true }) (ahead : Bool) : (x.judged ahead).Ok s := by
  unfold Resending.judged
  split
  · have hlisted : Ok s { x with ahead := x.ahead ++ [x.n] } :=
      { hx with
        done := fun m hm hbeyond hahead =>
          hx.done m hm hbeyond fun hmem => hahead (mem_append_left _ hmem) }
    refine hlisted.next fun _ hahead => ?_
    exact absurd (mem_append_right _ (mem_singleton.2 rfl)) hahead
  have horder := hx.order
  have hnumbered := hx.numbered
  rw [htodo] at horder hnumbered
  simpa [Resending.loop] using hx.toSending horder hnumbered hcovered

theorem Ok.read {R : Resends E} (h : Inv R.outbox) (hx : x.Ok R.outbox)
    (hstage : x.stage = .sending [] true) :
    (x.loop (R.rows x) (R.batchSize ≤ (R.rows x).length)).Ok R.outbox := by
  set cond : Row E → Bool := fun r => r.part = x.part ∧ r.published ∧ r.pos.any (isAfter x.after)
    with hcond
  set rows := R.outbox.inOrder cond with hrows
  have hread : R.rows x = (rows.take R.batchSize).map fun o => ⟨o, posOf R.outbox.rows o⟩ := rfl
  have hsorted : rows.Pairwise fun o o' => posOf R.outbox.rows o < posOf R.outbox.rows o' := by
    refine h.inOrder_sorted (p := x.part) fun r hr => ?_
    obtain ⟨hpart, -, hany⟩ := of_decide_eq_true hr
    obtain ⟨pt, hpt, -⟩ := any_eq_true _ _ |>.1 hany
    exact ⟨hpart, by simp [hpt]⟩
  have hrow : ∀ o ∈ rows, ∃ pt, R.outbox.table.Numbered o x.part pt ∧
      posOf R.outbox.rows o = pt ∧ isAfter x.after pt = true := by
    intro o ho
    obtain ⟨r, hr, hc, -⟩ := mem_inOrder.1 ho
    obtain ⟨hpart, -, hany⟩ := of_decide_eq_true hc
    obtain ⟨pt, hpt, hafter⟩ := any_eq_true _ _ |>.1 hany
    exact ⟨pt, hpart ▸ numbered_of_row hr hpt, posOf_eq hr hpt, hafter⟩
  have htodo : x.todo = [] := by rw [Resending.todo, hstage]
  have hmem : ∀ y ∈ R.rows x, ∃ o ∈ rows, y = ⟨o, posOf R.outbox.rows o⟩ := by
    intro y hy
    rw [hread] at hy
    obtain ⟨o, ho, rfl⟩ := mem_map.1 hy
    exact ⟨o, mem_of_mem_take ho, rfl⟩
  refine hx.toSending ?_ ?_ fun hbeyond y hdue => ?_
  · -- the read is after what was sent
    refine pairwise_append.2 ⟨?_, ?_, fun y hy z hz => ?_⟩
    · simpa [htodo] using hx.order
    · rw [hread, pairwise_map]
      exact hsorted.sublist (take_sublist _ _)
    obtain ⟨o, ho, rfl⟩ := hmem z hz
    obtain ⟨pt, -, hpos, hafter⟩ := hrow o ho
    exact hpos ▸ hx.high pt hafter y hy
  · intro y hy
    rcases mem_append.1 hy with hy | hy
    · exact hx.numbered y (mem_append_left _ hy)
    obtain ⟨o, ho, rfl⟩ := hmem y hy
    obtain ⟨pt, hnum, hpos, -⟩ := hrow o ho
    exact hpos ▸ hnum
  have hold := hx.covered (by simp [hstage]) hbeyond y hdue
  rw [htodo, append_nil] at hold
  rcases hold with hsent | ⟨-, ⟨r, hr, hkept⟩, hlast⟩
  · exact .inl (mem_append_left _ hsent)
  obtain ⟨r₀, hr₀, hpart, hpub, hpos, hstart⟩ := hdue
  obtain ⟨r₁, hr₁, hlater⟩ := hx.arrived _ r₀ hr₀
  obtain rfl : r₁ = r := by rwa [hr, some.injEq, eq_comm] at hr₁
  have hpos₁ : r₁.pos = some y.pos := hlater.pos _ hpos
  have hin : y.ord ∈ rows := by
    refine mem_inOrder.2 ⟨r₁, hr, ?_, (h.visible_iff hr hpos₁).2 hkept⟩
    have hpart₁ : r₁.part = x.part := by rw [hlater.part, hpart]; rfl
    simp [hcond, hpart₁, hlater.published hpub, hpos₁, hx.low _ hstart hlast]
  have hkey : posOf R.outbox.rows y.ord = y.pos := posOf_eq hr hpos₁
  rcases mem_take_or_lt hsorted R.batchSize hin with htake | ⟨hfull, hbefore⟩
  · refine .inl (mem_append_right _ ?_)
    change y ∈ R.rows x
    rw [hread]
    exact mem_map.2 ⟨y.ord, htake, by rw [hkey]⟩
  refine .inr ⟨?_, ⟨r₁, hr, hkept⟩, fun z hz => ?_⟩
  · change decide (R.batchSize ≤ (R.rows x).length) = true
    rw [hread, length_map, hfull]
    simp
  rcases mem_append.1 hz with hz | hz
  · exact hlast z hz
  change z ∈ R.rows x at hz
  rw [hread] at hz
  obtain ⟨o, ho, rfl⟩ := mem_map.1 hz
  exact hkey ▸ hbefore o ho

theorem Ok.took (hx : x.Ok s) {y : Sent} {todo : List Sent} {more : Bool}
    (hstage : x.stage = .sending (y :: todo) more) : ((x.took y).loop todo more).Ok s := by
  have htodo : x.todo = y :: todo := by rw [Resending.todo, hstage]
  have hmore : x.more = more := by rw [Resending.more, hstage]
  have hsame : (x.took y).sent x.n ++ todo = x.sent x.n ++ x.todo := by simp [Resending.took, htodo]
  have horder : ∀ z ∈ x.sent x.n, z.pos < y.pos := by
    have := (pairwise_append.1 hx.order).2.2
    intro z hz
    exact this z hz y (by simp [htodo])
  have hother : ∀ m, m ≠ x.n → (x.took y).sent m = x.sent m := fun m hm => by
    simp [Resending.took, update_of_ne hm]
  have hhere : (x.took y).sent x.n = x.sent x.n ++ [y] := by simp [Resending.took]
  have hdone : ∀ m < x.n, m ∉ x.beyond → m ∉ x.ahead → (x.took y).Delivered s m := by
    intro m hm hbeyond hahead
    have hd := hx.done m hm hbeyond hahead
    rw [Delivered, ← hother m (Nat.ne_of_lt hm)] at hd
    exact hd
  have hhigh : ∀ pt, isAfter (x.took y).after pt = true →
      ∀ z ∈ (x.took y).sent x.n, z.pos < pt := by
    intro pt hpt z hz
    have hlt : y.pos < pt := before_start.1 hpt
    rw [hhere] at hz
    rcases mem_append.1 hz with hz | hz
    · exact (horder z hz).trans hlt
    rwa [mem_singleton.1 hz]
  have hlow : ∀ pt, isAfter (x.start x.n) pt = true →
      (∀ z ∈ (x.took y).sent x.n, z.pos < pt) → isAfter (x.took y).after pt = true := by
    intro pt _ hall
    refine before_start.2 (hall y ?_)
    rw [hhere]
    exact mem_append_right _ (mem_singleton.2 rfl)
  have hcovered : x.n ∉ x.beyond → Covered s { x.took y with stage := .sending todo more } := by
    intro hbeyond z hz
    have hold := hx.covered (by simp [hstage]) hbeyond z hz
    rw [← hsame, hmore] at hold
    exact hold
  -- the request as it is between this message and the next
  have hbetween : Ok s { x.took y with stage := .sending todo more } :=
    { arrived := hx.arrived
      done := hdone
      later := fun m hm => by
        rw [show ({ x.took y with stage := .sending todo more } : Resending E).sent m =
          x.sent m from
          hother m (ne_of_gt hm)]
        exact hx.later m hm
      order := by
        change ((x.took y).sent x.n ++ todo).Pairwise _
        rw [hsame]
        exact hx.order
      numbered := by
        change ∀ z ∈ (x.took y).sent x.n ++ todo, _
        rw [hsame]
        exact hx.numbered
      high := hhigh
      low := hlow
      fresh := fun h => by simp at h
      covered := fun _ => hcovered }
  exact hbetween.toSending hbetween.order hbetween.numbered hcovered

end Resending

/-! ## All requests -/

namespace Resends

variable {s s' : Resends E}

def FromRequest (s : Resends E) (x : Resending E) : Prop :=
  ∀ n pt, (x.request.asked s.impl n).all (· < pt) = true → isAfter (x.start n) pt = true

structure Inv (s : Resends E) : Prop where
  outbox : Events.Inv s.outbox
  noted : Noted s.outbox s.noted
  sessions : ∀ f x, s.at_ f = some x → x.Ok s.outbox ∧ s.FromRequest x
  answers : ∀ x, .ok x ∈ s.answers → s.FromRequest x ∧
    ∀ m < x.partitions, m ∉ x.beyond → m ∉ x.ahead → x.Delivered s.outbox m

/-- The purge deletes no row that a request has still to read. -/
def SparesUnread (s : Resends E) : ResendAction E → Prop
  | .outbox (.purge ords) => ∀ f x, s.at_ f = some x → ∀ o ∈ ords, ∀ (r : Row E) (pt : Point),
      s.outbox.rows[o]? = some r → r.pos = some pt → ¬ x.Unread r.part pt
  | _ => True

variable {x : Resending E}

section
variable (h : s.Inv)
include h

theorem Inv.put (f : Nat) (hx : x.Ok s.outbox) (hfrom : s.FromRequest x) : (s.put f x).Inv := by
  unfold Resends.put
  split
  · refine { h with sessions := fun g y hy => ?_ }
    by_cases heq : g = f
    · subst heq
      obtain rfl : x = y := by simpa using hy
      exact ⟨hx, hfrom⟩
    exact h.sessions g y (by simpa [update_of_ne heq] using hy)
  rename_i hend
  refine { h with sessions := fun g y hy => ?_, answers := fun y hy => ?_ }
  · by_cases heq : g = f
    · simp [heq] at hy
    exact h.sessions g y (by simpa [update_of_ne heq] using hy)
  rcases mem_append.1 hy with hy | hy
  · exact h.answers y hy
  obtain rfl : y = x := by simpa using hy
  exact ⟨hfrom, fun m hm => hx.done m (lt_of_lt_of_le hm (not_lt.1 hend))⟩

theorem Inv.refuse (f : Nat) (e : ResendError) : (s.refuse f e).Inv := by
  refine { h with sessions := fun g y hy => ?_, answers := fun y hy => ?_ }
  · by_cases heq : g = f
    · simp [Resends.refuse, heq] at hy
    exact h.sessions g y (by simpa [Resends.refuse, update_of_ne heq] using hy)
  exact h.answers y (by simpa [Resends.refuse] using hy)

theorem Inv.requested (f : Nat) (req : ResendRequest) : (s.requested f req).Inv := by
  unfold Resends.requested
  split
  · exact h.refuse f _
  split
  · exact h.refuse f _
  rename_i start hstarts
  refine h.put f ?_ fun n pt hpt => startsOf_asked hstarts (fun _ _ => rfl) pt hpt
  exact
    { arrived := fun o r hr => ⟨r, hr, .refl r⟩
      done := fun m hm => absurd hm (not_lt_zero m)
      later := fun _ _ => rfl
      order := List.Pairwise.nil
      numbered := fun y hy => absurd hy not_mem_nil
      high := fun _ _ y hy => absurd hy not_mem_nil
      low := fun _ hpt _ => hpt
      fresh := fun _ => rfl
      covered := fun hstage => absurd rfl hstage }

/-- Where the note is not after the start, no row that is due was deleted. -/
theorem Inv.kept (hx : x.Ok s.outbox) (hstart : x.sent x.n = [])
    (hbeyond : s.isBeyond x.part x.after = false) {y : Sent} (hdue : x.Due x.n y) :
    Resending.Kept s.outbox y := by
  obtain ⟨r, hr, hpart, -, hpos, hafter⟩ := hdue
  obtain ⟨r', hr', hlater⟩ := hx.arrived _ r hr
  refine ⟨r', hr', ?_⟩
  by_contra hgone
  rw [Bool.not_eq_false] at hgone
  obtain ⟨top, htop, hle⟩ := h.noted _ r' y.pos hr' (hlater.pos _ hpos) hgone
  have hafter : isAfter x.after y.pos = true := hx.low _ hafter (by simp [hstart])
  have hnoted : s.noted x.part = some top := by
    rw [← htop, hlater.part, hpart]
    rfl
  rw [isBeyond, hnoted, any_some] at hbeyond
  cases hstart : x.after with
  | none => simp [hstart] at hbeyond
  | some a =>
    rw [hstart, all_some] at hbeyond
    rw [hstart, isAfter, all_some] at hafter
    rcases hle.lt_or_eq with hlt | heq
    · rw [Start.before_of_lt hafter hlt] at hbeyond
      cases hbeyond
    rw [← heq, hafter] at hbeyond
    cases hbeyond

theorem Inv.judge (hx : x.Ok s.outbox) (hstage : x.stage = .judging) : (s.judge x).Ok s.outbox := by
  have hsent : x.sent x.n = [] := hx.fresh hstage
  have htodo : x.todo = [] := by rw [Resending.todo, hstage]
  set beyond := if s.isBeyond x.part x.after then x.beyond ++ [x.n] else x.beyond with hb
  have hcovered : ∀ stage, Resending.todo { x with stage := stage } = [] →
      Resending.more { x with stage := stage } = true → x.n ∉ beyond →
      Resending.Covered s.outbox { x with beyond := beyond, stage := stage } := by
    intro stage htodo hmore hbeyond y hdue
    refine .inr ⟨hmore, h.kept hx hsent ?_ hdue, fun z hz => ?_⟩
    · by_contra hcontra
      rw [Bool.not_eq_false] at hcontra
      rw [hb, if_pos hcontra] at hbeyond
      simp at hbeyond
    have hz : z ∈ x.sent x.n ++ Resending.todo { x with stage := stage } := hz
    simp [hsent, htodo] at hz
  have hlisted : Resending.Ok s.outbox { x with beyond := beyond } :=
    { hx with
      done := fun m hm hbeyond => hx.done m hm fun hmem => hbeyond <| by
        change m ∈ beyond
        rw [hb]
        split
        · exact mem_append_left _ hmem
        exact hmem
      covered := fun hne => absurd hstage hne }
  have hjudged : ∀ ahead, (Resending.judged { x with beyond := beyond } ahead).Ok s.outbox :=
    fun ahead => hlisted.judged htodo (fun hbeyond => hcovered _ rfl rfl hbeyond) ahead
  unfold Resends.judge
  dsimp only
  rw [← hb]
  split
  · exact hjudged _
  · exact hjudged _
  split
  · exact hjudged _
  have horder := hx.order
  have hnumbered := hx.numbered
  rw [htodo] at horder hnumbered
  exact
    { hlisted with
      order := horder
      numbered := hnumbered
      fresh := fun hne => by simp at hne
      covered := fun _ hbeyond => hcovered _ rfl rfl hbeyond }

end

theorem look_ok (hx : x.Ok s.outbox) (hstage : x.stage = .looking) : (s.look x).Ok s.outbox := by
  have htodo : x.todo = [] := by rw [Resending.todo, hstage]
  have hjudged : ∀ ahead, (x.judged ahead).Ok s.outbox := by
    refine hx.judged htodo fun hbeyond y hdue => ?_
    have hold := hx.covered (by simp [hstage]) hbeyond y hdue
    rw [htodo] at hold
    exact hold.imp_right fun hrest => ⟨rfl, hrest.2⟩
  unfold Resends.look
  split
  · exact hjudged _
  split
  · exact hjudged _
  exact hjudged _

theorem Inv.outboxStep (h : s.Inv) {a : Action E} {o : State E} (hok : s.SparesUnread (.outbox a))
    (hstep : Events.step s.outbox a = some o) :
    Inv { s with outbox := o, noted := notePurged s.noted s.outbox.rows a } where
  outbox := inv_step h.outbox hstep
  noted := h.noted.step h.outbox hstep
  sessions f x hx := by
    obtain ⟨hox, hfrom⟩ := h.sessions f x hx
    refine ⟨hox.step h.outbox ?_ hstep, hfrom⟩
    rintro ords rfl
    exact hok f x hx
  answers x hx := by
    obtain ⟨hfrom, hall⟩ := h.answers x hx
    exact ⟨hfrom, fun m hm hbeyond hahead => (hall m hm hbeyond hahead).step h.outbox hstep⟩

/-! No stage changes what a request asked for. -/

section
variable (h : s.FromRequest x)
include h

theorem FromRequest.judged (ahead : Bool) : s.FromRequest (x.judged ahead) := by
  unfold Resending.judged
  split <;> exact h

theorem FromRequest.loop (todo : List Sent) (more : Bool) : s.FromRequest (x.loop todo more) := by
  unfold Resending.loop
  split <;> exact h

theorem FromRequest.judge : s.FromRequest (s.judge x) := by
  unfold Resends.judge
  dsimp only
  generalize (if s.isBeyond x.part x.after then x.beyond ++ [x.n] else x.beyond) = beyond
  have hjudged : ∀ ahead, s.FromRequest (Resending.judged { x with beyond := beyond } ahead) :=
    FromRequest.judged (x := { x with beyond := beyond }) h
  split
  · exact hjudged _
  · exact hjudged _
  split
  · exact hjudged _
  exact h

theorem FromRequest.look : s.FromRequest (s.look x) := by
  unfold Resends.look
  split
  · exact h.judged _
  split
  · exact h.judged _
  exact h.judged _

end

theorem inv_step {a : ResendAction E} (h : s.Inv) (hok : s.SparesUnread a)
    (hstep : step s a = some s') : s'.Inv := by
  cases a with simp only [step] at hstep
  | outbox a =>
    obtain ⟨o, ho, rfl⟩ := map_eq_some_iff.1 hstep
    exact h.outboxStep hok ho
  | request f req =>
    split at hstep <;> cases hstep
    exact h.requested f req
  | judge f =>
    split at hstep
    next x hx =>
      split at hstep <;> cases hstep
      rename_i hstage
      obtain ⟨hox, hfrom⟩ := h.sessions f x hx
      exact h.put f (h.judge hox hstage) hfrom.judge
    simp at hstep
  | look f =>
    split at hstep
    next x hx =>
      split at hstep <;> cases hstep
      rename_i hstage
      obtain ⟨hox, hfrom⟩ := h.sessions f x hx
      exact h.put f (look_ok hox hstage) hfrom.look
    simp at hstep
  | read f =>
    split at hstep
    next x hx =>
      split at hstep <;> cases hstep
      rename_i hstage
      obtain ⟨hox, hfrom⟩ := h.sessions f x hx
      exact h.put f (hox.read h.outbox hstage) (hfrom.loop _ _)
    simp at hstep
  | publish f ok =>
    split at hstep
    next x hx =>
      split at hstep
      next y todo more hstage =>
        obtain ⟨hox, hfrom⟩ := h.sessions f x hx
        split at hstep
        · cases hstep
          have htook : s.FromRequest (x.took y) := hfrom
          exact h.put f (hox.took hstage) (htook.loop _ _)
        · cases hstep
          exact h.refuse f _
      simp at hstep
    simp at hstep
  | fail f =>
    split at hstep
    · split at hstep
      · cases hstep
        exact h.refuse f _
      · cases hstep
        exact h.refuse f _
    simp at hstep

theorem inv_init (epoch : Epoch) (streams : List Stream) (impl : String) (batch : Int) :
    (init E epoch streams impl batch).Inv where
  outbox := Events.inv_init epoch
  noted o r pt hr := by simp [init, Events.init] at hr
  sessions f x hx := by simp [init] at hx
  answers x hx := by simp [init] at hx

/-- **Redelivery.**  In every run in which no purge deletes a row that a request has still to read,
every request answered without an error has, in each partition it lists neither as beyond the
retention nor as ahead, sent again every row that was published when it arrived and is after the
asked position, under the row's own position and in position order. -/
theorem resend_complete (epoch : Epoch) (streams : List Stream) (impl : String) (batch : Int)
    (as : List (ResendAction E)) (s : Resends E)
    (hmeets : Meets step SparesUnread (init E epoch streams impl batch) as)
    (hrun : run step (init E epoch streams impl batch) as = some s) :
    ∀ x, .ok x ∈ s.answers → ∀ n < x.partitions, n ∉ x.beyond → n ∉ x.ahead →
      (x.sent n).Pairwise (fun y z => y.pos < z.pos) ∧
      (∀ y ∈ x.sent n, s.outbox.table.Numbered y.ord ⟨x.request.stream, n⟩ y.pos) ∧
      ∀ (o : Nat) (r : Row E) (pt : Point), x.arrived[o]? = some r →
        r.part = ⟨x.request.stream, n⟩ → r.published = true → r.pos = some pt →
        (x.request.asked s.impl n).all (· < pt) = true → ⟨o, pt⟩ ∈ x.sent n := by
  have hinv : s.Inv :=
    run_invariant (fun _ _ _ h => inv_step h) (inv_init epoch streams impl batch) hmeets hrun
  intro x hx n hn hbeyond hahead
  obtain ⟨hfrom, hall⟩ := hinv.answers x hx
  obtain ⟨horder, hnumbered, hsent⟩ := hall n hn hbeyond hahead
  refine ⟨horder, hnumbered, fun o r pt hr hpart hpub hpos hafter => ?_⟩
  exact hsent ⟨o, pt⟩ ⟨r, hr, hpart, hpub, hpos, hfrom n pt hafter⟩

/-- Three rows of one partition, numbered and published. -/
def publishedRows : List (ResendAction Unit) :=
  [.insert 0 ⟨"orders", 0⟩ (), .insert 0 ⟨"orders", 0⟩ (), .insert 0 ⟨"orders", 0⟩ (),
    .commit 0, .lock ⟨"orders", 0⟩ 10, .readEpoch ⟨"orders", 0⟩, .assign ⟨"orders", 0⟩,
    .finish ⟨"orders", 0⟩, .markPublished [0, 1, 2]].map .outbox

def orders : Stream := { name := "orders", partitions := 1 }

/-- Asked from after the first row, two rows are sent again, one batch of one row after the other.
-/
theorem resend_complete_after_the_first :
    ∃ s x, run step (init Unit ⟨1, 1⟩ [orders] "a" 1) (publishedRows ++
        [.request 0 ⟨"orders", [⟨0, some ⟨"a", "1.1", 1⟩⟩]⟩, .judge 0, .read 0, .publish 0 true,
          .read 0, .publish 0 true, .read 0]) = some s ∧ s.answers = [.ok x] ∧
      0 < x.partitions ∧ x.beyond = [] ∧ x.ahead = [] ∧
      x.arrived.map (·.pos) = [some ⟨⟨1, 1⟩, 1⟩, some ⟨⟨1, 1⟩, 2⟩, some ⟨⟨1, 1⟩, 3⟩] ∧
      ⟨1, ⟨⟨1, 1⟩, 2⟩⟩ ∈ x.sent 0 := by
  refine ⟨?s, ?x, ?hrun, ?hanswers, ?hparts, ?hbeyond, ?hahead, ?harrived,
    (resend_complete ⟨1, 1⟩ [orders] "a" 1 _ ?s ?hmeets ?hrun ?x ?hmem 0 ?hparts ?hnotBeyond
      ?hnotAhead).2.2 1 ?r ⟨⟨1, 1⟩, 2⟩ ?hrow ?hpart ?hpublished ?hpos ?hasked⟩
  case hrun | hanswers | hbeyond | hahead | harrived | hrow => rfl
  case hpart | hpublished | hpos => rfl
  case hparts | hasked => decide +kernel
  case hmem => exact mem_singleton_self _
  case hnotBeyond | hnotAhead => nofun
  refine .of_always fun a ha s => ?_
  rcases a with (_ | _ | _ | _ | _ | _ | _ | _ | _ | _ | ords) | _ | _ | _ | _ | _ | _
  case outbox.purge => simp [publishedRows] at ha
  all_goals trivial

/-- The purge deletes the second row between the judgement and the read: it is not sent, and the
answer lists nothing. -/
theorem purged_after_the_judgement :
    ∃ s x, run step (init Unit ⟨1, 1⟩ [orders] "a" 500) (publishedRows ++
        [.request 0 ⟨"orders", []⟩, .judge 0, .outbox (.purge [1]), .read 0, .publish 0 true,
          .publish 0 true]) = some s ∧ s.answers = [.ok x] ∧
      x.beyond = [] ∧ x.ahead = [] ∧
      (x.arrived[1]?).map (fun r => (r.published, r.pos)) = some (true, some ⟨⟨1, 1⟩, 2⟩) ∧
      x.sent 0 = [⟨0, ⟨1, 1⟩, 1⟩, ⟨2, ⟨1, 1⟩, 3⟩] :=
  ⟨_, _, rfl, rfl, rfl, rfl, rfl, rfl⟩

end Resends
end BeSdk.Events
