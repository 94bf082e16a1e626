import Mathlib.Data.List.Sort

/-!
# Reading a table in key order, a batch at a time

A reader keeps a position and takes the next `n` rows in the order of their keys.  What makes the
position a complete record of the reading is that a batch has no holes: a row whose key is not above
the last key of the batch is in it (`mem_batch_of_le`), and a reader with something to read moves
(`batch_eq_nil`).
-/

namespace Batch

open List

variable {α β : Type*} [LinearOrder β] (key : α → β) (n : Nat) {rows : List α} {a b : α}

/-- `ORDER BY key LIMIT n`. -/
def batch (rows : List α) : List α := (rows.insertionSort fun a b => key a ≤ key b).take n

variable {key n}

theorem mem_of_mem_batch (h : a ∈ batch key n rows) : a ∈ rows :=
  (mem_insertionSort _).1 (mem_of_mem_take h)

theorem batch_eq_nil (hn : 0 < n) (h : batch key n rows = []) : rows = [] := by
  have hsorted : rows.insertionSort (fun a b => key a ≤ key b) = [] := by
    rcases take_eq_nil_iff.1 h with hzero | hnil
    · omega
    exact hnil
  have hlength := length_insertionSort (fun a b => key a ≤ key b) rows
  rw [hsorted] at hlength
  exact length_eq_zero_iff.1 hlength.symm

theorem sorted_insertionSort (key : α → β) (rows : List α) :
    (rows.insertionSort fun a b => key a ≤ key b).Pairwise fun a b => key a ≤ key b := by
  have htotal : Std.Total fun a b : α => key a ≤ key b := ⟨fun _ _ => le_total _ _⟩
  have htrans : IsTrans α fun a b => key a ≤ key b := ⟨fun _ _ _ => le_trans⟩
  exact pairwise_insertionSort _ _

theorem le_getLast (ha : a ∈ batch key n rows) (hlast : (batch key n rows).getLast? = some b) :
    key a ≤ key b := by
  obtain ⟨init, hsplit⟩ := getLast?_eq_some_iff.1 hlast
  have hsorted : (batch key n rows).Pairwise fun a b => key a ≤ key b :=
    (sorted_insertionSort key rows).sublist (take_sublist _ _)
  rw [hsplit] at ha hsorted
  rcases mem_append.1 ha with ha | ha
  · exact (pairwise_append.1 hsorted).2.2 a ha b (mem_singleton.2 rfl)
  rw [mem_singleton.1 ha]

/-- **No holes.**  With one row a key, every row up to the last one of a batch is in the batch. -/
theorem mem_batch_of_le (hinj : ∀ a ∈ rows, ∀ b ∈ rows, key a = key b → a = b) (ha : a ∈ rows)
    (hlast : (batch key n rows).getLast? = some b) (hle : key a ≤ key b) :
    a ∈ batch key n rows := by
  have hb : b ∈ batch key n rows := mem_of_getLast? hlast
  have hall : a ∈ (rows.insertionSort fun a b => key a ≤ key b).take n ++
      (rows.insertionSort fun a b => key a ≤ key b).drop n := by
    rw [take_append_drop]
    exact (mem_insertionSort _).2 ha
  rcases mem_append.1 hall with hin | hout
  · exact hin
  -- a row left for later is not before the last one
  have hsorted := sorted_insertionSort key rows
  rw [← take_append_drop n (rows.insertionSort _), pairwise_append] at hsorted
  have hge : key b ≤ key a := hsorted.2.2 b hb a hout
  rw [hinj a ha b (mem_of_mem_batch hb) (le_antisymm hle hge)]
  exact hb

/-- A row with at most `n` rows up to it is in the batch. -/
theorem mem_batch_of_length_le (ha : a ∈ rows)
    (hle : (rows.filter fun b => key b ≤ key a).length ≤ n) : a ∈ batch key n rows := by
  have hperm := perm_insertionSort (fun a b => key a ≤ key b) rows
  obtain ⟨u, v, hsplit⟩ := append_of_mem (hperm.mem_iff.2 ha)
  have hsorted := sorted_insertionSort key rows
  rw [hsplit, pairwise_append] at hsorted
  have hu : ∀ b ∈ u, key b ≤ key a := fun b hb => hsorted.2.2 b hb a mem_cons_self
  rw [← (hperm.filter _).length_eq, hsplit, filter_append, length_append,
    filter_eq_self.2 (by simpa using hu), filter_cons_of_pos (by simp),
    length_cons] at hle
  obtain ⟨k, hk⟩ : ∃ k, n - u.length = k + 1 := ⟨n - u.length - 1, by omega⟩
  rw [batch, hsplit, take_append, hk, take_succ_cons]
  exact mem_append_right _ mem_cons_self

theorem nodup_map_batch {γ : Type*} {g : α → γ} (h : (rows.map g).Nodup) :
    ((batch key n rows).map g).Nodup := by
  have hperm := (perm_insertionSort (fun a b => key a ≤ key b) rows).map g
  exact (hperm.nodup_iff.2 h).sublist ((take_sublist _ _).map g)

end Batch
