import BeSdk.Work.Cron
import BeSdk.Work.WallClock

/-!
# Time slots

The slots of a schedule in a zone: `Slots` of `work/cron.go`.  It goes through the days from one
before the first instant to one after the last, from noon to noon, takes the times of each day that
is one of the schedule's, and keeps those whose instant is between the two; then it sorts them by
their instants.

Each step of the loop asks `time.Date` for the same time of the next day, which need not exist:
where a zone leaves out the noon of a day, the day is passed over, or the loop comes back to where
it was. So the loop is given a number of turns, and `slots` is none where they do not suffice.
Where a zone is steady (`Zone.SteadyOn`) every day has its noon, and no two offsets of one day are
more than twelve hours apart.  Steady around a range (`Zone.SteadyAround`), the loop goes from
day to day (`days_noonAt`), the days beside the first and the last are enough (`between_of_slot`),
and the result is what it says: the slots with an instant in the range, in order (`slots_spec`).
Since that order is strict, a list is known by its members, and a range can be cut in two
(`slots_append`).

Instants are nanoseconds here; the clocks of `WallClock` count seconds.
-/

namespace BeSdk.Work

open List Calendar Texts

def second : Int := 1000000000

/-- `time.Date` of what the clock is to count: the offset is looked up as if that were UTC, and
again at the instant that this gives. -/
def Zone.date (z : Zone) (l : Int) : Int := l - z.offset (l - z.offset l)

/-- `AddDate` by days. -/
def Zone.addDays (z : Zone) (t n : Int) : Int := z.date (z.clock t + n * 86400)

def Zone.dateOf (z : Zone) (t : Int) : Date := ofDays (z.clock t / 86400)

def Zone.noonAt (z : Zone) (n : Int) : Int := z.date (n * 86400 + 43200)

/-- Slot is one time slot: its identity (local date and time) and the instant it runs. -/
structure Slot where
  date : Date
  hour : Int
  minute : Int
  runAt : Int
deriving DecidableEq

/-- A number in at least so many characters, as `%0wd` writes it. -/
def padInt (w : Nat) (n : Int) : List Char :=
  if n < 0 then '-' :: pad (w - 1) n.natAbs else pad w n.natAbs

/-- The slot's text, YYYY-MM-DDTHH:MM. -/
def Slot.id (x : Slot) : String := String.ofList
  (padInt 4 x.date.year ++ '-' :: padInt 2 x.date.month ++ '-' :: padInt 2 x.date.day ++
    'T' :: padInt 2 x.hour ++ ':' :: padInt 2 x.minute)

/-- The loop over the days, up to noon of the last one. -/
def Zone.days (z : Zone) (stop : Int) : Nat → Int → Option (List Date)
  | 0, _ => none
  | turns + 1, d =>
    if d ≤ stop then (z.days stop turns (z.addDays d 1)).map (z.dateOf d :: ·) else some []

def Zone.slotAt (z : Zone) (d : Date) (h m : Int) : Slot :=
  ⟨d, h, m, second * z.wallInstant d h m⟩

theorem runAt_slotAt (z : Zone) (d : Date) (h m : Int) :
    (z.slotAt d h m).runAt = second * z.wallInstant d h m := rfl

/-- The slots of a day with an instant after one and not after another. -/
def Schedule.slotsOn (s : Schedule) (z : Zone) (after upTo : Int) (d : Date) : List Slot :=
  if s.dayOK d then
    (keys s.hours).flatMap fun h =>
      ((keys s.minutes).map (z.slotAt d h)).filter fun x => after < x.runAt ∧ x.runAt ≤ upTo
  else []

/-- Slots returns the slots whose run instant is in (after, until], in order. -/
def Schedule.slots (s : Schedule) (z : Zone) (after upTo : Int) : Option (List Slot) :=
  let day := z.addDays (after / second) (-1)
  let last := z.addDays (upTo / second) 1
  let d := z.noonAt (z.dateOf day).toDays
  let stop := z.noonAt (z.dateOf last).toDays
  (z.days stop (((stop - d) / 43200).toNat + 2) d).map fun dates =>
    (dates.flatMap (s.slotsOn z after upTo)).insertionSort fun x y => x.runAt ≤ y.runAt

structure Schedule.IsSlot (s : Schedule) (z : Zone) (x : Slot) : Prop where
  day : s.dayOK x.date = true
  hour : x.hour ∈ s.hours
  minute : x.minute ∈ s.minutes
  runAt : x.runAt = second * z.wallInstant x.date x.hour x.minute

/-! ## Steady zones -/

/-- From one second to another, every day that starts there has its noon, where `time.Date` finds
it, and within a day the clock is not put forward or back by more than twelve hours. -/
structure Zone.SteadyOn (z : Zone) (a b : Int) : Prop where
  noon : ∀ n, a ≤ n * 86400 → n * 86400 ≤ b → z.clock (z.noonAt n) = n * 86400 + 43200
  forward : ∀ t t', a ≤ t → t ≤ t' → t' ≤ b → t' ≤ t + 86400 → z.offset t' ≤ z.offset t + 43200
  back : ∀ t t', a ≤ t → t ≤ t' → t' ≤ b → t' ≤ t + 86400 → z.offset t ≤ z.offset t' + 43200

/-- Steady in a range and in the five days before and after it, which is all that `Slots` looks
at. -/
def Zone.SteadyAround (z : Zone) (after upTo : Int) : Prop :=
  z.SteadyOn (min after upTo / second - 432000) (max after upTo / second + 432000)

section Steady
variable {z : Zone} {a b : Int}

theorem Zone.SteadyAround.mono {lo hi after upTo : Int} (hz : z.SteadyAround lo hi)
    (hafter : lo ≤ after ∧ after ≤ hi) (hupTo : lo ≤ upTo ∧ upTo ≤ hi) :
    z.SteadyAround after upTo := by
  unfold Zone.SteadyAround second at *
  exact ⟨fun n ha hb => hz.noon n (by omega) (by omega),
    fun t t' ha hle hb => hz.forward t t' (by omega) hle (by omega),
    fun t t' ha hle hb => hz.back t t' (by omega) hle (by omega)⟩

/-- What the days around a range are: those from five before its first instant on, up to five after
its last one. -/
theorem Zone.SteadyAround.exists_on {after upTo : Int} (hz : z.SteadyAround after upTo) :
    ∃ a b, z.SteadyOn a b ∧ a + 432000 ≤ after / second ∧ a + 432000 ≤ upTo / second ∧
      after / second + 432000 ≤ b ∧ upTo / second + 432000 ≤ b := by
  refine ⟨_, _, hz, ?_⟩
  unfold second
  omega

section
variable (hz : z.SteadyOn a b)
include hz

/-- `time.Date` is at most twelve hours off. -/
theorem Zone.SteadyOn.clock_date {l : Int} (ha : a + 54000 ≤ l) (hb : l + 54000 ≤ b) :
    l - 43200 ≤ z.clock (z.date l) ∧ z.clock (z.date l) ≤ l + 43200 := by
  have hnear : ∀ t t', a ≤ t → t ≤ b → a ≤ t' → t' ≤ b → t - 86400 ≤ t' → t' ≤ t + 86400 →
      z.offset t' ≤ z.offset t + 43200 ∧ z.offset t ≤ z.offset t' + 43200 := by
    intro t t' hat htb hat' htb' hge hle
    rcases le_total t t' with h | h
    · exact ⟨hz.forward t t' hat h htb' hle, hz.back t t' hat h htb' hle⟩
    exact ⟨hz.back t' t hat' h htb (by omega), hz.forward t' t hat' h htb (by omega)⟩
  have hl := z.le l
  have hl' := z.neg_le l
  have ht := z.le (l - z.offset l)
  have ht' := z.neg_le (l - z.offset l)
  have hfirst := hnear l (l - z.offset l) (by omega) (by omega) (by omega) (by omega) (by omega)
    (by omega)
  have hsecond := hnear (l - z.offset l) (l - z.offset (l - z.offset l)) (by omega) (by omega)
    (by omega) (by omega) (by omega) (by omega)
  unfold Zone.clock Zone.date
  omega

variable {n : Int}

theorem Zone.SteadyOn.addDays_noonAt (ha : a ≤ n * 86400) (hb : n * 86400 ≤ b) :
    z.addDays (z.noonAt n) 1 = z.noonAt (n + 1) := by
  rw [Zone.addDays, hz.noon n ha hb, Zone.noonAt]
  congr 1
  omega

theorem Zone.SteadyOn.dateOf_noonAt (ha : a ≤ n * 86400) (hb : n * 86400 ≤ b) :
    z.dateOf (z.noonAt n) = ofDays n := by
  rw [Zone.dateOf, hz.noon n ha hb]
  congr 1
  omega

theorem Zone.SteadyOn.noonAt_succ (ha : a + 86400 ≤ n * 86400) (hb : (n + 2) * 86400 ≤ b) :
    z.noonAt n + 43200 ≤ z.noonAt (n + 1) := by
  have hnoon := hz.noon n (by omega) (by omega)
  have hnoon' := hz.noon (n + 1) (by omega) (by omega)
  unfold Zone.clock at hnoon hnoon'
  by_contra hlt
  have hle := z.le (z.noonAt (n + 1))
  have hge := z.neg_le (z.noonAt n)
  have hle' := z.le (z.noonAt n)
  have hge' := z.neg_le (z.noonAt (n + 1))
  rcases le_total (z.noonAt n) (z.noonAt (n + 1)) with h | h
  · have := hz.forward _ _ (by omega) h (by omega) (by omega)
    omega
  have := hz.back _ _ (by omega) h (by omega) (by omega)
  omega

theorem Zone.SteadyOn.noonAt_add (ha : a + 86400 ≤ n * 86400) (k : Nat)
    (hb : (n + k + 1) * 86400 ≤ b) : z.noonAt n + 43200 * k ≤ z.noonAt (n + k) := by
  induction k with
  | zero => simp
  | succ k ih =>
    have := ih (by omega)
    have := hz.noonAt_succ (n := n + k) (by omega) (by omega)
    rw [show n + ((k + 1 : Nat) : Int) = n + k + 1 by omega]
    omega

theorem Zone.SteadyOn.noonAt_le_iff {n' : Int} (ha : a + 86400 ≤ n * 86400)
    (hb : (n + 1) * 86400 ≤ b) (ha' : a + 86400 ≤ n' * 86400) (hb' : (n' + 1) * 86400 ≤ b) :
    z.noonAt n ≤ z.noonAt n' ↔ n ≤ n' := by
  constructor
  · intro h
    by_contra hlt
    have := hz.noonAt_add ha' (n - n').toNat (by omega)
    rw [show n' + ((n - n').toNat : Int) = n by omega] at this
    omega
  intro h
  have := hz.noonAt_add ha (n' - n).toNat (by omega)
  rw [show n + ((n' - n).toNat : Int) = n' by omega] at this
  omega

end

def daysFrom (n : Int) (count : Nat) : List Date :=
  (List.range count).map fun i : Nat => ofDays (n + i)

theorem daysFrom_succ (n : Int) (count : Nat) :
    daysFrom n (count + 1) = ofDays n :: daysFrom (n + 1) count := by
  rw [daysFrom, range_succ_eq_map, map_cons, map_map, daysFrom]
  congr 1
  · simp
  refine map_congr_left fun i _ => ?_
  simp only [Function.comp_apply]
  congr 1
  omega

variable {n : Int}

theorem Zone.SteadyOn.days_noonAt (hz : z.SteadyOn a b) {n' : Int}
    (ha' : a + 86400 ≤ n' * 86400) (hb' : (n' + 2) * 86400 ≤ b) {turns : Nat}
    (ha : a + 86400 ≤ n * 86400) (hb : (n + 1) * 86400 ≤ b)
    (hturns : (n' + 1 - n).toNat < turns) :
    z.days (z.noonAt n') turns (z.noonAt n) = some (daysFrom n (n' + 1 - n).toNat) := by
  induction turns generalizing n with
  | zero => omega
  | succ turns ih =>
    unfold Zone.days
    have hle := hz.noonAt_le_iff ha hb ha' (by omega)
    by_cases h : n ≤ n'
    · rw [if_pos (hle.2 h), hz.addDays_noonAt (by omega) (by omega),
        ih (by omega) (by omega) (by omega), Option.map_some,
        hz.dateOf_noonAt (by omega) (by omega), ← daysFrom_succ]
      congr 2
      omega
    rw [if_neg (hle.not.2 h), show (n' + 1 - n).toNat = 0 by omega]
    rfl

end Steady

/-! ## The days of a range -/

section Range
variable {z : Zone} {s : Schedule} {after upTo : Int} {x : Slot}

theorem Schedule.IsSlot.validTime (hs : s.Plain) (hx : s.IsSlot z x) :
    ValidTime x.hour x.minute := ⟨hs.hours _ hx.hour, hs.minutes _ hx.minute⟩

/-- The first day and the last one of the loop are within four days of the range's ends. -/
theorem Zone.SteadyOn.clock_addDays {a b t : Int} (hz : z.SteadyOn a b) (ha : a + 432000 ≤ t)
    (hb : t + 432000 ≤ b) :
    t - 345600 ≤ z.clock (z.addDays t (-1)) / 86400 * 86400 ∧
      z.clock (z.addDays t (-1)) / 86400 * 86400 ≤ t + 86400 ∧
      t - 172800 ≤ z.clock (z.addDays t 1) / 86400 * 86400 ∧
      z.clock (z.addDays t 1) / 86400 * 86400 ≤ t + 259200 := by
  have hle := z.le t
  have hge := z.neg_le t
  have hclock : z.clock t = t + z.offset t := rfl
  have hfirst := hz.clock_date (l := z.clock t + -1 * 86400) (by omega) (by omega)
  have hlast := hz.clock_date (l := z.clock t + 1 * 86400) (by omega) (by omega)
  unfold Zone.addDays
  omega

/-- A slot with an instant in the range is of a day in the range that the loop goes through. -/
theorem between_of_slot (hz : z.SteadyAround after upTo) (hs : s.Plain) (hx : s.IsSlot z x)
    (hafter : after < x.runAt) (hupTo : x.runAt ≤ upTo) :
    z.clock (z.addDays (after / second) (-1)) / 86400 ≤ x.date.toDays ∧
      x.date.toDays ≤ z.clock (z.addDays (upTo / second) 1) / 86400 := by
  obtain ⟨first, final, hz, hfirst₁, -, -, hfinal⟩ := hz.exists_on
  have hv := hx.validTime hs
  obtain ⟨hreached, hfirst⟩ := clock_wallInstant (z := z) (d := x.date) hv
  rw [hx.runAt] at hafter hupTo
  generalize z.wallInstant x.date x.hour x.minute = t at hreached hfirst hafter hupTo
  have hnaive : x.date.toDays * 86400 ≤ naive x.date x.hour x.minute ∧
      naive x.date x.hour x.minute < (x.date.toDays + 1) * 86400 := by
    obtain ⟨hhour, hminute⟩ := hv
    unfold naive
    omega
  generalize naive x.date x.hour x.minute = w at hnaive hreached hfirst
  have hafter' : after / second < t := by
    unfold second at *
    omega
  have hupTo' : t ≤ upTo / second := by
    unfold second at *
    omega
  generalize after / second = a at hafter' hfirst₁ ⊢
  generalize upTo / second = b at hupTo' hfinal ⊢
  constructor
  · -- otherwise the clock had passed the time by twelve hours, and was not set back so far
    by_contra hlt
    have hle := z.le a
    have hge := z.neg_le a
    have hclock : z.clock a = a + z.offset a := rfl
    have hday := (hz.clock_date (l := z.clock a + -1 * 86400) (by omega) (by omega)).2
    unfold Zone.addDays at hlt
    rcases hfirst with hclock | hclock
    · have := z.neg_le t
      have hback := hz.back a t (by omega) hafter'.le (by omega)
      unfold Zone.clock at *
      omega
    have := z.neg_le (t - 1)
    have hback := hz.back a (t - 1) (by omega) (by omega) (by omega)
    unfold Zone.clock at *
    omega
  by_contra hlt
  have hle := z.le t
  have hle' := z.le b
  have hge := z.neg_le b
  have hclock : z.clock b = b + z.offset b := rfl
  have hday := (hz.clock_date (l := z.clock b + 1 * 86400) (by omega) (by omega)).1
  unfold Zone.addDays at hlt
  have hback := hz.back t b (by omega) hupTo' (by omega)
  unfold Zone.clock at *
  omega

theorem mem_keys {m : List Int} {a : Int} : a ∈ keys m ↔ a ∈ m := by
  rw [keys, (perm_insertionSort _ _).mem_iff, mem_dedup]

theorem pairwise_keys (m : List Int) : (keys m).Pairwise (· < ·) := by
  have hle : (keys m).Pairwise (· ≤ ·) := pairwise_insertionSort _ _
  have hne : (keys m).Nodup := (perm_insertionSort _ _).nodup_iff.2 (nodup_dedup m)
  exact (hle.and hne).imp fun h => lt_of_le_of_ne h.1 h.2

theorem mem_slotsOn {d : Date} : x ∈ s.slotsOn z after upTo d ↔
    x.date = d ∧ s.IsSlot z x ∧ after < x.runAt ∧ x.runAt ≤ upTo := by
  unfold Schedule.slotsOn
  constructor
  · intro hx
    split at hx
    next hday =>
      obtain ⟨h, hh, hx⟩ := mem_flatMap.1 hx
      obtain ⟨hx, hrange⟩ := mem_filter.1 hx
      obtain ⟨m, hm, rfl⟩ := mem_map.1 hx
      exact ⟨rfl, ⟨hday, mem_keys.1 hh, mem_keys.1 hm, rfl⟩, of_decide_eq_true hrange⟩
    cases hx
  rintro ⟨rfl, hx, hrange⟩
  have hslot : z.slotAt x.date x.hour x.minute = x := by rw [Zone.slotAt, ← hx.runAt]
  rw [if_pos hx.day]
  refine mem_flatMap.2 ⟨x.hour, mem_keys.2 hx.hour, mem_filter.2 ⟨?_, ?_⟩⟩
  · exact mem_map.2 ⟨x.minute, mem_keys.2 hx.minute, hslot⟩
  exact decide_eq_true hrange

def Slot.place (x : Slot) : Int := naive x.date x.hour x.minute

/-- The order of slots: by their instants and, where these are equal, by their places. -/
def Slot.Before (x y : Slot) : Prop := x.runAt < y.runAt ∨ x.runAt = y.runAt ∧ x.place < y.place

theorem pairwise_slotsOn (hs : s.Plain) (d : Date) :
    (s.slotsOn z after upTo d).Pairwise fun x y => x.place < y.place := by
  unfold Schedule.slotsOn
  split
  · refine pairwise_flatMap.2 ⟨fun h _ => List.Pairwise.filter _ (pairwise_map.2 ?_), ?_⟩
    · refine (pairwise_keys s.minutes).imp fun hlt => ?_
      simp only [Slot.place, Zone.slotAt, naive]
      omega
    refine (pairwise_keys s.hours).imp fun hlt x hx y hy => ?_
    obtain ⟨m, hm, rfl⟩ := mem_map.1 (mem_of_mem_filter hx)
    obtain ⟨m', hm', rfl⟩ := mem_map.1 (mem_of_mem_filter hy)
    have hminute := hs.minutes m (mem_keys.1 hm)
    have hminute' := hs.minutes m' (mem_keys.1 hm')
    simp only [Slot.place, Zone.slotAt, naive]
    omega
  exact List.Pairwise.nil

theorem pairwise_daysFrom (n : Int) (count : Nat) :
    (daysFrom n count).Pairwise fun d d' => d.toDays < d'.toDays := by
  refine pairwise_map.2 (pairwise_lt_range.imp fun hlt => ?_)
  rw [toDays_ofDays, toDays_ofDays]
  omega

theorem mem_daysFrom {count : Nat} {d : Date} :
    d ∈ daysFrom n count ↔ n ≤ d.toDays ∧ d.toDays < n + count := by
  rw [daysFrom, mem_map]
  constructor
  · rintro ⟨i, hi, rfl⟩
    rw [mem_range] at hi
    rw [toDays_ofDays]
    omega
  intro h
  refine ⟨(d.toDays - n).toNat, mem_range.2 (by omega), ?_⟩
  rw [show n + ((d.toDays - n).toNat : Int) = d.toDays by omega, ofDays_toDays]

theorem place_lt_of_toDays_lt (hs : s.Plain) (hx : s.IsSlot z x) (hy : s.IsSlot z y)
    (h : x.date.toDays < y.date.toDays) : x.place < y.place := by
  obtain ⟨hhour, hminute⟩ := hx.validTime hs
  obtain ⟨hhour', hminute'⟩ := hy.validTime hs
  unfold Slot.place naive
  omega

/-- The slots of a range are the schedule's with an instant in it, in order. -/
theorem slots_spec (hz : z.SteadyAround after upTo) (hs : s.Plain) :
    ∃ l, s.slots z after upTo = some l ∧ l.Pairwise Slot.Before ∧
      ∀ x, x ∈ l ↔ s.IsSlot z x ∧ after < x.runAt ∧ x.runAt ≤ upTo := by
  let n := z.clock (z.addDays (after / second) (-1)) / 86400
  let n' := z.clock (z.addDays (upTo / second) 1) / 86400
  have hdays : s.slots z after upTo =
      (z.days (z.noonAt n') (((z.noonAt n' - z.noonAt n) / 43200).toNat + 2) (z.noonAt n)).map
        fun dates => (dates.flatMap (s.slotsOn z after upTo)).insertionSort
          fun x y => x.runAt ≤ y.runAt := by
    simp only [Schedule.slots, Zone.dateOf, toDays_ofDays]
    rfl
  obtain ⟨first, final, hon, hafter, hupTo, hafter', hupTo'⟩ := hz.exists_on
  obtain ⟨hn, hn', -⟩ := hon.clock_addDays hafter hafter'
  obtain ⟨-, -, hm, hm'⟩ := hon.clock_addDays hupTo hupTo'
  have hturns : (n' + 1 - n).toNat < ((z.noonAt n' - z.noonAt n) / 43200).toNat + 2 := by
    by_cases h : n ≤ n'
    · have hadd := hon.noonAt_add (n := n) (by omega) (n' - n).toNat (by omega)
      rw [show n + ((n' - n).toNat : Int) = n' by omega] at hadd
      omega
    omega
  rw [hon.days_noonAt (by omega) (by omega) (by omega) (by omega) hturns, Option.map_some] at hdays
  refine ⟨_, hdays, ?_, ?_⟩
  · refine Gather.pairwise_insertionSort Slot.runAt (pairwise_flatMap.2
      ⟨fun d _ => pairwise_slotsOn hs d, (pairwise_daysFrom n _).imp ?_⟩)
    intro d d' hlt x hx y hy
    obtain ⟨rfl, hx', -⟩ := mem_slotsOn.1 hx
    obtain ⟨rfl, hy', -⟩ := mem_slotsOn.1 hy
    exact place_lt_of_toDays_lt hs hx' hy' hlt
  intro x
  rw [(perm_insertionSort _ _).mem_iff, mem_flatMap]
  simp only [mem_slotsOn]
  constructor
  · rintro ⟨d, -, -, hx⟩
    exact hx
  intro hx
  refine ⟨x.date, mem_daysFrom.2 ?_, rfl, hx⟩
  obtain ⟨hge, hle⟩ := between_of_slot hz hs hx.1 hx.2.1 hx.2.2
  change n ≤ _ at hge
  change _ ≤ n' at hle
  omega

/-! ## The order of slots -/

theorem Slot.Before.irrefl (x : Slot) : ¬ x.Before x := by
  unfold Slot.Before
  omega

theorem Slot.Before.asymm (h : x.Before y) : ¬ y.Before x := by
  unfold Slot.Before at *
  omega

instance slotBeforeIrrefl : Std.Irrefl Slot.Before := ⟨Slot.Before.irrefl⟩

instance slotBeforeAntisymm : Std.Antisymm Slot.Before := ⟨fun _ _ h h' => absurd h' h.asymm⟩

/-! ## The texts of slots -/

theorem padInt_injective {w : Nat} {n' : Int} (h : padInt w n = padInt w n') : n = n' := by
  have hminus : ∀ w n, '-' ∉ pad w n := fun w n hmem =>
    absurd (isDigit_of_mem_pad hmem) (by decide)
  have hpad : ∀ {w m m' : Nat}, pad w m = pad w m' → m = m' := by
    intro w m m' heq
    rw [← ofDigitChars_pad w m, heq, ofDigitChars_pad]
  unfold padInt at h
  split at h <;> split at h
  · have := hpad (List.cons.inj h).2
    omega
  · exact absurd (h ▸ mem_cons_self) (hminus _ _)
  · exact absurd (h ▸ mem_cons_self) (hminus _ _)
  have := hpad h
  omega

theorem length_padInt (h : 0 ≤ n) (h' : n < 100) : (padInt 2 n).length = 2 := by
  rw [padInt, if_neg (not_lt.2 h)]
  exact length_pad (by decide) (by omega)

theorem Schedule.IsSlot.length_pads (hs : s.Plain) (hx : s.IsSlot z x) :
    (padInt 2 x.date.month).length = 2 ∧ (padInt 2 x.date.day).length = 2 ∧
      (padInt 2 x.hour).length = 2 ∧ (padInt 2 x.minute).length = 2 := by
  obtain ⟨hhour, hminute⟩ := hx.validTime hs
  have hmonth := x.date.month_le
  have hday := x.date.day_le_thirtyOne
  exact ⟨length_padInt (by omega) (by omega), length_padInt (by omega) (by omega),
    length_padInt (by omega) (by omega), length_padInt (by omega) (by omega)⟩

theorem eq_of_id_eq (hs : s.Plain) (hx : s.IsSlot z x) (hy : s.IsSlot z y)
    (h : x.id = y.id) : x = y := by
  obtain ⟨hmonth, hday, hhour, hminute⟩ := hx.length_pads hs
  obtain ⟨hmonth', hday', hhour', hminute'⟩ := hy.length_pads hs
  have hchars := String.ofList_injective h
  -- all parts but the first have a fixed length
  obtain ⟨hchars, hm⟩ := append_inj' hchars (by simp [hminute, hminute'])
  obtain ⟨hchars, hh⟩ := append_inj' hchars (by simp [hhour, hhour'])
  obtain ⟨hchars, hd⟩ := append_inj' hchars (by simp [hday, hday'])
  obtain ⟨hyear, hmo⟩ := append_inj' hchars (by simp [hmonth, hmonth'])
  have hdate : x.date = y.date := by
    refine toDays_injective ?_
    have hmo' := Int.ofNat.inj (padInt_injective (List.cons.inj hmo).2)
    have hd' := Int.ofNat.inj (padInt_injective (List.cons.inj hd).2)
    rw [Date.toDays, Date.toDays, padInt_injective hyear, hmo', hd']
  have hhour : x.hour = y.hour := padInt_injective (List.cons.inj hh).2
  have hminute : x.minute = y.minute := padInt_injective (List.cons.inj hm).2
  have hrunAt : x.runAt = y.runAt := by rw [hx.runAt, hy.runAt, hdate, hhour, hminute]
  cases x
  cases y
  simp_all

/-- The slots of a range are those of its two parts, and no two have one text. -/
theorem slots_append {a b c : Int} (hz : z.SteadyAround a c) (hs : s.Plain) (hab : a ≤ b)
    (hbc : b ≤ c) : ∃ l l', s.slots z a b = some l ∧ s.slots z b c = some l' ∧
      s.slots z a c = some (l ++ l') ∧ ((l ++ l').map Slot.id).Nodup := by
  have hac := hab.trans hbc
  obtain ⟨l, hl, hsorted, hmem⟩ := slots_spec (hz.mono ⟨le_rfl, hac⟩ ⟨hab, hbc⟩) hs
  obtain ⟨l', hl', hsorted', hmem'⟩ := slots_spec (hz.mono ⟨hab, hbc⟩ ⟨hac, le_rfl⟩) hs
  obtain ⟨whole, hwhole, hsorted'', hmem''⟩ := slots_spec hz hs
  obtain rfl : whole = l ++ l' := by
    refine hsorted''.eq_of_mem_iff (pairwise_append.2 ⟨hsorted, hsorted', ?_⟩) ?_
    · intro x hx y hy
      have hx' := ((hmem x).1 hx).2.2
      have hy' := ((hmem' y).1 hy).2.1
      exact Or.inl (by omega)
    intro x
    rw [mem_append, hmem, hmem', hmem'', ← and_or_left]
    refine and_congr_right fun _ => ?_
    omega
  refine ⟨l, l', hl, hl', hwhole, List.Nodup.map_on (fun x hx y hy hid => ?_) hsorted''.nodup⟩
  exact eq_of_id_eq hs ((hmem'' x).1 hx).1 ((hmem'' y).1 hy).1 hid

end Range
end BeSdk.Work
