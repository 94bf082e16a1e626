import BeSdk.Events.Forwarder

/-!
# Reading the outbox by position

`ReadAfter` and the redelivery read numbered rows of one partition in the order of their positions,
a batch at a time, while business transactions, numbering, publishing and the purge go on.  This
file has what both need: the statement (`State.inOrder`, of which a `LIMIT` takes the first rows)
and what a step of the outbox can do to a row that is there (`step_later`).

A numbered row never changes its partition or its position, is never unpublished and never comes
back after its deletion; only a purge deletes it.  So what a statement finds under a condition on
positions differs from what an earlier one would have found by the rows numbered since, which come
after all others, and by the rows purged since.
-/

namespace BeSdk.Events

open Option List Runs

variable {E : Type*} {s s' : State E} {a : Action E}

/-- `SELECT ... WHERE cond ORDER BY epoch_generation, epoch_timeline, seq`, as one statement sees
the table. -/
def State.inOrder (s : State E) (cond : Row E → Bool) : List Nat :=
  (ordsWhere (fun r => cond r ∧ s.visible r) s.rows).insertionSort
    fun o o' => posOf s.rows o ≤ posOf s.rows o'

variable {o : Nat}

theorem mem_inOrder {cond : Row E → Bool} :
    o ∈ s.inOrder cond ↔ ∃ r, s.rows[o]? = some r ∧ cond r = true ∧ s.visible r = true := by
  simp [State.inOrder, mem_ordsWhere]

variable {r : Row E} {pt : Point}

theorem posOf_eq {rows : List (Row E)} (hr : rows[o]? = some r)
    (hpos : r.pos = some pt) : posOf rows o = pt := by
  simp [posOf, hr, hpos]

theorem numbered_of_row (hr : s.rows[o]? = some r)
    (hpos : r.pos = some pt) : s.table.Numbered o r.part pt :=
  ⟨r.slot, slots_of_rows hr, rfl, hpos⟩

theorem row_of_numbered {p : StreamPart} (h : s.table.Numbered o p pt) :
    ∃ r, s.rows[o]? = some r ∧ r.part = p ∧ r.pos = some pt := by
  obtain ⟨d, hd, hpart, hpos⟩ := h
  obtain ⟨r, hr, rfl⟩ := rows_of_slots hd
  exact ⟨r, hr, hpart, hpos⟩

theorem Inv.visible_iff (h : Inv s) (hr : s.rows[o]? = some r)
    (hpos : r.pos = some pt) : s.visible r = true ↔ r.purged = false := by
  obtain ⟨at_, hat⟩ := h.table.committed o r.slot pt (slots_of_rows hr) hpos
  have hat : s.txs r.tx = .committed at_ := hat
  simp [State.visible, hat]

/-- The rows of one partition come out in the order of their positions, no two at one. -/
theorem Inv.inOrder_sorted (h : Inv s) {p : StreamPart} {cond : Row E → Bool}
    (hcond : ∀ r, cond r = true → r.part = p ∧ r.pos.isSome) :
    (s.inOrder cond).Pairwise fun o o' => posOf s.rows o < posOf s.rows o' := by
  have hle : (s.inOrder cond).Pairwise fun o o' => posOf s.rows o ≤ posOf s.rows o' :=
    Batch.sorted_insertionSort _ _
  have hnodup : (s.inOrder cond).Nodup := by
    refine (perm_insertionSort _ _).nodup_iff.2 ?_
    exact (ordsWhere_sorted _ _).imp fun hlt => Nat.ne_of_lt hlt
  refine (hle.and hnodup).imp_of_mem fun {o o'} ho ho' hboth => ?_
  refine lt_of_le_of_ne hboth.1 fun heq => hboth.2 ?_
  obtain ⟨r, hr, hr', -⟩ := mem_inOrder.1 ho
  obtain ⟨q, hq, hq', -⟩ := mem_inOrder.1 ho'
  obtain ⟨hpart, hpos⟩ := hcond r hr'
  obtain ⟨hpart', hpos'⟩ := hcond q hq'
  obtain ⟨pt, hpt⟩ := isSome_iff_exists.1 hpos
  obtain ⟨pt', hpt'⟩ := isSome_iff_exists.1 hpos'
  rw [posOf_eq hr hpt, posOf_eq hq hpt'] at heq
  have hnum : s.table.Numbered o p pt := hpart ▸ numbered_of_row hr hpt
  have hnum' : s.table.Numbered o' p pt := hpart' ▸ heq ▸ numbered_of_row hq hpt'
  exact h.table.unique o o' p pt hnum hnum'

/-- With a `LIMIT`, what is left out comes after everything that is not. -/
theorem mem_take_or_lt {l : List Nat} {key : Nat → Point}
    (hsorted : l.Pairwise fun o o' => key o < key o') (n : Nat) (ho : o ∈ l) :
    o ∈ l.take n ∨ (l.take n).length = n ∧ ∀ o' ∈ l.take n, key o' < key o := by
  have hsplit := hsorted
  rw [← take_append_drop n l, pairwise_append] at hsplit
  rw [← take_append_drop n l, mem_append] at ho
  rcases ho with ho | ho
  · exact .inl ho
  refine .inr ⟨?_, fun o' ho' => hsplit.2.2 o' ho' o ho⟩
  have hdrop : 0 < (l.drop n).length := length_pos_of_mem ho
  rw [length_drop] at hdrop
  rw [length_take]
  omega

/-! ## What a step does to a row -/

structure Row.Later (r r' : Row E) : Prop where
  part : r'.part = r.part
  pos : ∀ pt, r.pos = some pt → r'.pos = some pt
  published : r.published = true → r'.published = true
  purged : r.purged = true → r'.purged = true

theorem Row.Later.refl (r : Row E) : r.Later r := ⟨rfl, fun _ h => h, fun h => h, fun h => h⟩

theorem Row.Later.trans {r' r'' : Row E} (h : r.Later r') (h' : r'.Later r'') : r.Later r'' :=
  ⟨h'.part.trans h.part, fun pt hpt => h'.pos pt (h.pos pt hpt),
    fun hp => h'.published (h.published hp), fun hp => h'.purged (h.purged hp)⟩

theorem step_later (h : Inv s) (hstep : step s a = some s') (hr : s.rows[o]? = some r) :
    ∃ r', s'.rows[o]? = some r' ∧ r.Later r' ∧
      (r'.purged = true → r.purged = true ∨ ∃ ords, a = .purge ords ∧ o ∈ ords) := by
  cases step_moves hstep with
  | inserted hactive =>
    refine ⟨r, ?_, .refl r, fun hp => .inl hp⟩
    rw [List.getElem?_append_left (List.getElem?_eq_some_iff.1 hr).1, hr]
  | finished hsession =>
    obtain ⟨-, -, -, -, hpicked⟩ := h.sessions _ _ hsession
    simp only [State.finish, assignRows, getElem?_mapIdx, hr, map_some, some.injEq, exists_eq_left']
    split
    next hmem =>
      refine ⟨⟨rfl, fun pt hpt => ?_, fun hp => hp, fun hp => hp⟩, fun hp => .inl hp⟩
      exact absurd hmem (hpicked.notMem (slots_of_rows hr) hpt)
    exact ⟨.refl r, fun hp => .inl hp⟩
  | marked hall =>
    simp only [State.flag, getElem?_mapIdx, hr, map_some, some.injEq, exists_eq_left']
    split
    · exact ⟨⟨rfl, fun _ hpt => hpt, fun _ => rfl, fun hp => hp⟩, fun hp => .inl hp⟩
    exact ⟨.refl r, fun hp => .inl hp⟩
  | @purged ords hall =>
    simp only [State.flag, getElem?_mapIdx, hr, map_some, some.injEq, exists_eq_left']
    split
    next hmem =>
      exact ⟨⟨rfl, fun _ hpt => hpt, fun hp => hp, fun _ => rfl⟩, fun _ => .inr ⟨ords, rfl, hmem⟩⟩
    exact ⟨.refl r, fun hp => .inl hp⟩
  | _ => exact ⟨r, hr, .refl r, fun hp => .inl hp⟩

/-- A row that was not there before the step is new: neither numbered nor deleted. -/
theorem step_earlier (hstep : step s a = some s') {r' : Row E} (hr' : s'.rows[o]? = some r') :
    (∃ r, s.rows[o]? = some r) ∨ r'.pos = none ∧ r'.purged = false := by
  cases step_moves hstep with
  | inserted hactive =>
    simp only [getElem?_append] at hr'
    split at hr'
    · exact .inl ⟨r', hr'⟩
    obtain rfl := mem_singleton.1 (mem_of_getElem? hr')
    exact .inr ⟨rfl, rfl⟩
  | finished _ | marked _ | purged _ =>
    simp only [State.finish, State.flag, assignRows, getElem?_mapIdx, map_eq_some_iff] at hr'
    obtain ⟨r, hr, -⟩ := hr'
    exact .inl ⟨r, hr⟩
  | _ => exact .inl ⟨r', hr'⟩

/-- What a purge does: the rows were published, and are marked as deleted. -/
theorem step_purge {ords : List Nat} (hstep : step s (.purge ords) = some s') :
    (∀ o ∈ ords, ∀ r, s.rows[o]? = some r → r.published = true) ∧
      s' = s.flag fun o r => if o ∈ ords then { r with purged := true } else r := by
  cases hmoves : step_moves hstep with
  | ended _ hstatus => simp at hstatus
  | purged hall => exact ⟨fun o ho r hr => by simpa [hr] using hall o ho, rfl⟩

/-- A row that is deleted after the step was numbered before it, where it is now, and was deleted
already or is one of those a purge deletes. -/
theorem step_purged (h : Inv s) (hstep : step s a = some s') {r' : Row E}
    (hr' : s'.rows[o]? = some r') (hpurged : r'.purged = true) :
    ∃ r, s.rows[o]? = some r ∧ r.part = r'.part ∧ r.pos = r'.pos ∧
      (r.purged = true ∨ ∃ ords, a = .purge ords ∧ o ∈ ords) := by
  rcases step_earlier hstep hr' with ⟨r, hr⟩ | ⟨-, hkept⟩
  · obtain ⟨r'', hr'', hlater, hwhy⟩ := step_later h hstep hr
    obtain rfl : r'' = r' := by rwa [hr', some.injEq, eq_comm] at hr''
    have hsome : r.pos.isSome := by
      rcases hwhy hpurged with hgone | ⟨ords, rfl, hmem⟩
      · exact h.kept o r hr (.inr hgone)
      exact h.kept o r hr (.inl ((step_purge hstep).1 o hmem r hr))
    obtain ⟨pt, hpt⟩ := isSome_iff_exists.1 hsome
    exact ⟨r, hr, hlater.part.symm, by rw [hpt, hlater.pos pt hpt], hwhy hpurged⟩
  simp [hkept] at hpurged

/-- **Positions are final.**  Whatever is inserted, numbered, published and purged after a state of
the outbox, a row keeps its partition and its position, stays published and never comes back. -/
theorem positions_final (epoch : Epoch) (as later : List (Action E)) (s t : State E)
    (hrun : run step (init E epoch) as = some s) (hlater : run step s later = some t) (o : Nat)
    (r : Row E) (hr : s.rows[o]? = some r) : ∃ r', t.rows[o]? = some r' ∧ r.Later r' := by
  refine (run_invariant_of_step (P := fun t => Inv t ∧ ∃ r', t.rows[o]? = some r' ∧ r.Later r') ?_
    ⟨inv_run hrun, r, hr, .refl r⟩ hlater).2
  rintro s a s' ⟨hinv, r', hr', hkept⟩ hstep
  obtain ⟨r'', hr'', hkept', -⟩ := step_later hinv hstep hr'
  exact ⟨inv_step hinv hstep, r'', hr'', hkept.trans hkept'⟩

theorem positions_final_twoEpochs :
    ∃ s t r, run step (init Unit ⟨1, 1⟩) (twoEpochs.take 8) = some s ∧
      run step s (twoEpochs.drop 8) = some t ∧ s.rows[1]? = some r ∧
      ∃ r', t.rows[1]? = some r' ∧ r.Later r' := by
  refine ⟨?s, ?t, ?r, ?hrun, ?hlater, ?hr, positions_final ⟨1, 1⟩ _ _ ?s ?t ?hrun ?hlater 1 ?r ?hr⟩
  case hrun | hlater | hr => rfl

end BeSdk.Events
