import BeSdk.Projection.Alignment

/-!
# The run of the current generation

What holds of a run of `alignTo` while its generation is the current one, and that each of its own
transactions keeps it. There are two parts.

* `Refetch.Tracks`: what the run has touched is good. Both writers keep it for the same reason. The
  stream only overwrites a current row with a version that is no smaller, and a put either stores
  the run's own answer or leaves a row that is at least as new.
* `Refetch.Covers`: the pages behind the cursor have left a row for every record that stands as it
  stood at P0. A record that moved since can never come back to what it was, so a page read late
  still has everything that has to be on it.

When no row of another generation is left the run has touched every row, and what is good of the
touched ones is good of all.
-/

namespace BeSdk.Projection

open List Option AList Refetch

/-! ## What a run has touched -/

variable {J : Type} {f : Refetch J} {rows : Rows J} {s : AlignState J} {id : String}

section Tracks

/-- The identity a run writes is the adopted one: it was handed in, or the run has learned it and
written it to the source row. -/
def Run.Named (r : Run J) : Prop := r.learn = false ∧ ∀ page, r.phase ≠ .learning page

/-- The last answer the run has put for a record. -/
def Refetch.latest (f : Refetch J) (id : String) : Option (Answer J) := f.answers.find? (·.id = id)

/-- A row that holds an answer of the run or an input of the stream, and is no older than the run's
last answer. -/
structure Refetch.Good (f : Refetch J) (received : List (Input J)) (id : String) (r : Stored J) :
    Prop where
  site : f.run.Named → r.impl = f.run.want.impl ∧ r.epoch = f.run.want.epoch
  newest : ∀ a, f.latest id = some a → a.version ≤ r.version
  holds : (∃ a ∈ f.answers, a.id = id ∧ r = a.stored f.run.gen f.run.want.impl f.run.want.epoch) ∨
    ∃ i ∈ received, i.recordID = id ∧ r.Holds i

/-- The row carries the run's mark, or the run has put an answer for its record. -/
def Refetch.Touched (f : Refetch J) (id : String) (r : Stored J) : Prop :=
  r.alignedGen = some f.run.gen ∨ ∃ a ∈ f.answers, a.id = id

structure Refetch.Tracks (f : Refetch J) (rows : Rows J) (received : List (Input J)) : Prop where
  good : ∀ id r, rows.lookup id = some r → f.Touched id r → f.Good received id r
  present : ∀ a ∈ f.answers, (rows.lookup a.id).isSome

variable {received : List (Input J)} {r : Stored J}

theorem Refetch.Good.mono (hgood : f.Good received id r)
    (i : Input J) : f.Good (i :: received) id r where
  site := hgood.site
  newest := hgood.newest
  holds := hgood.holds.imp_right fun ⟨i', hi', hid, hholds⟩ =>
    ⟨i', mem_cons_of_mem i hi', hid, hholds⟩

theorem Refetch.Good.put (hgood : f.Good received id r) (a : Answer J)
    (ha : a.id = id → a.version ≤ r.version) :
    Refetch.Good { f with answers := a :: f.answers } received id r where
  site := hgood.site
  newest := by
    intro a' ha'
    by_cases hid : a.id = id
    · simp only [Refetch.latest, find?_cons, hid, decide_true] at ha'
      cases ha'
      exact ha hid
    simp only [Refetch.latest, find?_cons, hid, decide_false] at ha'
    exact hgood.newest a' ha'
  holds := hgood.holds.imp_left fun ⟨a', ha', hid, hr⟩ => ⟨a', mem_cons_of_mem a ha', hid, hr⟩

theorem Refetch.Touched.of_put {a : Answer J}
    (htouched : Refetch.Touched { f with answers := a :: f.answers } id r) (hid : id ≠ a.id) :
    f.Touched id r := by
  rcases htouched with hmark | ⟨a', ha', hid'⟩
  · exact .inl hmark
  rcases mem_cons.mp ha' with rfl | ha'
  · exact absurd hid'.symm hid
  exact .inr ⟨a', ha', hid'⟩

/-- One put of the run: its own answer, or a row at least as new, which it had touched. -/
theorem Refetch.Tracks.put (h : f.Tracks rows received) (a : Answer J) :
    Refetch.Tracks { f with answers := a :: f.answers }
      (put f.run.gen f.run.want.impl f.run.want.epoch rows a) received := by
  rcases put_cases f.run.gen f.run.want.impl f.run.want.epoch rows a with
    hput | ⟨hput, r₀, hr₀, hmark, hle⟩
  · rw [hput]
    constructor
    · intro id r hr htouched
      by_cases hid : id = a.id
      · subst hid
        rw [lookup_insert] at hr
        cases hr
        refine ⟨fun _ => ⟨rfl, rfl⟩, ?_, .inl ⟨a, mem_cons_self, rfl, rfl⟩⟩
        intro a' ha'
        simp only [Refetch.latest, find?_cons, decide_true] at ha'
        cases ha'
        exact le_refl _
      rw [lookup_insert_ne hid] at hr
      exact (h.good id r hr (htouched.of_put hid)).put a fun heq => absurd heq.symm hid
    intro a' ha'
    by_cases hid : a'.id = a.id
    · rw [hid, lookup_insert]
      rfl
    rw [lookup_insert_ne hid]
    rcases mem_cons.mp ha' with rfl | ha'
    · exact absurd rfl hid
    exact h.present a' ha'
  rw [hput]
  constructor
  · intro id r hr htouched
    by_cases hid : id = a.id
    · subst hid
      rw [hr₀] at hr
      cases hr
      exact (h.good a.id r₀ hr₀ (.inl hmark)).put a fun _ => hle
    exact (h.good id r hr (htouched.of_put hid)).put a fun heq => absurd heq.symm hid
  intro a' ha'
  rcases mem_cons.mp ha' with rfl | ha'
  · rw [hr₀]
    rfl
  exact h.present a' ha'

theorem Refetch.Tracks.putAll (answers : List (Answer J)) (h : f.Tracks rows received) :
    Refetch.Tracks { f with answers := answers.reverse ++ f.answers }
      (f.run.putAll rows answers) received := by
  induction answers generalizing rows f with
  | nil => exact h
  | cons a answers ih =>
    have hnext := ih (h.put a)
    simpa [Run.putAll, reverse_cons, append_assoc] using hnext

/-- An input of the stream over the current row: the row it leaves is good for a run that writes the
adopted identity, and so is every row that was. -/
theorem Refetch.Tracks.stored_good {i : Input J} (h : f.Tracks rows received)
    (hsite : f.run.Named → i.impl = f.run.want.impl ∧ i.epoch = f.run.want.epoch)
    (hunnamed : ¬ f.run.Named → f.answers = []) (hholds : r.Holds i)
    (hnewer : ∀ old, rows.lookup i.recordID = some old → old.SameSource i →
      old.version ≤ i.version) :
    f.Good (i :: received) i.recordID r where
  site := fun hnamed => by
    rw [hholds.impl, hholds.epoch]
    exact hsite hnamed
  newest := by
    intro a ha
    have hmem : a ∈ f.answers := mem_of_find?_eq_some ha
    have hid : a.id = i.recordID := by simpa using find?_some ha
    have hnamed : f.run.Named := by
      by_contra hnot
      rw [hunnamed hnot] at hmem
      cases hmem
    -- the answer left a row, and the input was compared with it
    obtain ⟨old, hold⟩ := isSome_iff_exists.mp (h.present a hmem)
    rw [hid] at hold
    have hgood := h.good i.recordID old hold (.inr ⟨a, hmem, hid⟩)
    have hsame : old.SameSource i := by
      obtain ⟨himpl, hepoch⟩ := hgood.site hnamed
      obtain ⟨himpl', hepoch'⟩ := hsite hnamed
      exact ⟨himpl.trans himpl'.symm, hepoch.trans hepoch'.symm⟩
    calc a.version ≤ old.version := hgood.newest a ha
      _ ≤ i.version := hnewer old hold hsame
      _ = r.version := hholds.version.symm
  holds := .inr ⟨i, mem_cons_self, rfl, hholds⟩

theorem Refetch.Tracks.insert
    {i : Input J} (h : f.Tracks rows received) (hgood : f.Good (i :: received) i.recordID r) :
    f.Tracks (rows.insert i.recordID r) (i :: received) where
  good := by
    intro id r' hr' htouched
    by_cases hid : id = i.recordID
    · subst hid
      rw [lookup_insert] at hr'
      cases hr'
      exact hgood
    rw [lookup_insert_ne hid] at hr'
    exact (h.good id r' hr' htouched).mono i
  present := by
    intro a ha
    by_cases hid : a.id = i.recordID
    · rw [hid, lookup_insert]
      rfl
    rw [lookup_insert_ne hid]
    exact h.present a ha

end Tracks

/-! ## What the pages have left -/

section Covers

/-- The record existed at P0 and stands as it stood then. -/
def Refetch.Stands (f : Refetch J) (sources : Site → Facts J) (id : String) : Prop :=
  id ≠ "" ∧ ∃ version data, (f.p0 f.run.want.site).lookup id = some ⟨version, .existing data⟩ ∧
    (sources f.run.want.site).lookup id = some ⟨version, .existing data⟩

/-- Everything up to the cursor that stands has a row. -/
def Refetch.Behind (f : Refetch J) (s : AlignState J) (cursor : String) : Prop :=
  ∀ id, id ≤ cursor → f.Stands s.sources id → (s.rows.lookup id).isSome

/-- Everything past the cursor that stands, up to the next cursor, is on the page. -/
def Refetch.OnPage (f : Refetch J) (s : AlignState J) (cursor : String) (page : Page J) : Prop :=
  ∀ id, cursor < id → page.next = "" ∨ id ≤ page.next → f.Stands s.sources id →
    ∃ rec ∈ page.records, rec.id = id

def Refetch.Covers (f : Refetch J) (s : AlignState J) : Prop :=
  match f.run.phase with
  | .started => True
  | .paging cursor => f.Behind s cursor
  | .learning page => f.OnPage s "" page
  | .putting cursor page => f.Behind s cursor ∧ f.OnPage s cursor page
  | _ => ∀ id, f.Stands s.sources id → (s.rows.lookup id).isSome

/-- Nothing that stands is at or before the empty cursor. -/
theorem Refetch.behind_empty (f : Refetch J) (s : AlignState J) : f.Behind s "" :=
  fun id hle hstands => absurd (le_antisymm hle (empty_le id)) hstands.1

/-- Rows stay, and a record that stands has stood all along. -/
theorem Refetch.Covers.mono {s' : AlignState J} (h : f.Covers s)
    (hrows : ∀ id, (s.rows.lookup id).isSome → (s'.rows.lookup id).isSome)
    (hstands : ∀ id, f.Stands s'.sources id → f.Stands s.sources id) : f.Covers s' := by
  unfold Refetch.Covers at h ⊢
  have hbehind {cursor : String} (h : f.Behind s cursor) : f.Behind s' cursor :=
    fun id hle hid => hrows id (h id hle (hstands id hid))
  have hpage {cursor : String} {page : Page J} (h : f.OnPage s cursor page) :
      f.OnPage s' cursor page :=
    fun id hlt hnext hid => h id hlt hnext (hstands id hid)
  have hall (h : ∀ id, f.Stands s.sources id → (s.rows.lookup id).isSome) :
      ∀ id, f.Stands s'.sources id → (s'.rows.lookup id).isSome :=
    fun id hid => hrows id (h id (hstands id hid))
  generalize f.run.phase = phase at h ⊢
  cases phase with
  | started => trivial
  | paging cursor => exact hbehind h
  | learning page => exact hpage h
  | putting cursor page => exact ⟨hbehind h.1, hpage h.2⟩
  | selecting | reading ids | answered ids results | completing => exact hall h

/-- A page read now has everything that stands in its stretch. -/
theorem Refetch.onPage_snapshot {source : Identity}
    {cursor : String} {limit : Nat} (hlimit : 0 < limit) (hsite : source.site = f.run.want.site) :
    f.OnPage s cursor ((s.sources source.site).snapshot source cursor limit) := by
  rintro id hlt hnext ⟨_, version, data, _, hnow⟩
  have hrecord : (s.sources source.site).record id = some ⟨id, version, data⟩ := by
    rw [hsite]
    simp [Facts.record, hnow]
  exact ⟨_, Facts.mem_snapshot hlimit hrecord hlt hnext, rfl⟩

/-- Once a page is written, everything up to its next cursor has a row. -/
theorem Refetch.behind_of_page {cursor : String} {page : Page J} (hbehind : f.Behind s cursor)
    (hpage : f.OnPage s cursor page)
    (hrows : ∀ id, (s.rows.lookup id).isSome → (rows.lookup id).isSome)
    (hput : ∀ rec ∈ page.records, (rows.lookup rec.id).isSome) (id : String)
    (hnext : page.next = "" ∨ id ≤ page.next) (hstands : f.Stands s.sources id) :
    (rows.lookup id).isSome := by
  rcases le_or_gt id cursor with hle | hlt
  · exact hrows id (hbehind id hle hstands)
  obtain ⟨rec, hrec, rfl⟩ := hpage id hlt hnext hstands
  exact hput rec hrec

end Covers

/-! ## The invariant -/

section Invariant

/-- What holds of the run of the current generation. -/
structure Refetch.Inv (f : Refetch J) (s : AlignState J) : Prop where
  tracks : f.Tracks s.rows s.received
  named : f.run.Named → s.src.impl ≠ "" ∧
    s.src.impl = f.run.want.impl ∧ s.src.epoch = f.run.want.epoch
  unnamed : ¬ f.run.Named → f.answers = []
  learns : f.run.learn = true → f.run.phase = .started ∨ f.run.phase = .paging ""
  learning : ∀ page, f.run.phase = .learning page → f.run.want.impl ≠ ""
  covers : f.Covers s
  settled : f.run.phase = .completing → ∀ id r, s.rows.lookup id = some r → f.Good s.received id r

theorem putAll_isSome {r : Run J} (answers : List (Answer J))
    (hsome : (rows.lookup id).isSome) : ((r.putAll rows answers).lookup id).isSome := by
  induction answers generalizing rows with
  | nil => exact hsome
  | cons a answers ih =>
    refine ih ?_
    rcases put_cases r.gen r.want.impl r.want.epoch rows a with hput | ⟨hput, _⟩
    · rw [hput]
      by_cases hid : id = a.id
      · rw [hid, lookup_insert]
        rfl
      rwa [lookup_insert_ne hid]
    rwa [hput]

/-- Every row of a writing transaction is an old one or the run's own, of its generation. -/
theorem putAll_rows {r : Run J} {P : String → Stored J → Prop} (rows : Rows J)
    (answers : List (Answer J)) (hold : ∀ id row, rows.lookup id = some row → P id row)
    (hnew : ∀ a ∈ answers, P a.id (a.stored r.gen r.want.impl r.want.epoch)) :
    ∀ id row, (r.putAll rows answers).lookup id = some row → P id row := by
  induction answers generalizing rows with
  | nil => exact hold
  | cons a answers ih =>
    refine ih _ ?_ fun a' ha' => hnew a' (mem_cons_of_mem a ha')
    rcases put_cases r.gen r.want.impl r.want.epoch rows a with hput | ⟨hput, _⟩
    · rw [hput]
      intro id row hrow
      by_cases hid : id = a.id
      · subst hid
        rw [lookup_insert] at hrow
        cases hrow
        exact hnew a mem_cons_self
      rw [lookup_insert_ne hid] at hrow
      exact hold id row hrow
    rw [hput]
    exact hold

/-- The run of the current generation does not see the other runs, the inputs in progress or the
status. -/
theorem Refetch.Inv.transfer {s' : AlignState J} (h : f.Inv s) (himpl : s'.src.impl = s.src.impl)
    (hepoch : s'.src.epoch = s.src.epoch) (hrows : s'.rows = s.rows)
    (hsources : s'.sources = s.sources) (hreceived : s'.received = s.received) : f.Inv s' where
  tracks := by
    rw [hrows, hreceived]
    exact h.tracks
  named := by
    rw [himpl, hepoch]
    exact h.named
  unnamed := h.unnamed
  learns := h.learns
  learning := h.learning
  covers := h.covers.mono (fun id hid => by rwa [hrows]) fun id hid => by rwa [← hsources]
  settled := by
    rw [hrows, hreceived]
    exact h.settled

variable {f' : Refetch J}

/-- Good rows do not depend on the phase, except on whether the run has learned its source. -/
theorem Refetch.Good.rephase {received : List (Input J)} {r : Stored J} (h : f.Good received id r)
    (hgen : f'.run.gen = f.run.gen) (hwant : f'.run.want = f.run.want)
    (hanswers : f'.answers = f.answers)
    (hnamed : f'.run.Named → f.run.Named) : f'.Good received id r where
  site := fun hnamed' => by
    rw [hwant]
    exact h.site (hnamed hnamed')
  newest := by
    unfold Refetch.latest
    rw [hanswers]
    exact h.newest
  holds := by
    rw [hanswers, hgen, hwant]
    exact h.holds

theorem Refetch.Tracks.rephase {received : List (Input J)}
    (h : f.Tracks rows received) (hgen : f'.run.gen = f.run.gen)
    (hwant : f'.run.want = f.run.want) (hanswers : f'.answers = f.answers)
    (hnamed : f'.run.Named → f.run.Named) : f'.Tracks rows received where
  good := by
    intro id r hr htouched
    have hbefore : f.Touched id r := by
      unfold Refetch.Touched at htouched ⊢
      rwa [hgen, hanswers] at htouched
    exact (h.good id r hr hbefore).rephase hgen hwant hanswers hnamed
  present := by
    rw [hanswers]
    exact h.present

/-- A run that has its source's identity goes on to a later phase. -/
theorem Refetch.Inv.rephase (h : f.Inv s)
    (hgen : f'.run.gen = f.run.gen) (hwant : f'.run.want = f.run.want)
    (hanswers : f'.answers = f.answers) (hnamed : f.run.Named) (hnamed' : f'.run.Named)
    (hcovers : f'.Covers s)
    (hsettled : f'.run.phase = .completing → ∀ id r, s.rows.lookup id = some r →
      f.Good s.received id r) : f'.Inv s where
  tracks := h.tracks.rephase hgen hwant hanswers fun _ => hnamed
  named := fun _ => by
    rw [hwant]
    exact h.named hnamed
  unnamed := fun hnot => absurd hnamed' hnot
  learns := fun hlearn => absurd (hlearn.symm.trans hnamed'.1) (by simp)
  learning := fun page hphase => absurd hphase (hnamed'.2 page)
  covers := hcovers
  settled := fun hphase id r hr =>
    (hsettled hphase id r hr).rephase hgen hwant hanswers fun _ => hnamed

theorem Refetch.Inv.point (h : f.Inv s)
    (hphase : f.run.phase = .started) (purgedAt : String → Option Nat) :
    Refetch.Inv ⟨{ f.run with phase := .paging "" }, s.sources, purgedAt, f.answers⟩ s := by
  have hnamed (hnamed' : Run.Named (J := J) { f.run with phase := .paging "" }) : f.run.Named :=
    ⟨hnamed'.1, by simp [hphase]⟩
  exact
    { tracks := h.tracks.rephase rfl rfl rfl hnamed
      named := fun hnamed' => h.named (hnamed hnamed')
      unnamed := fun hnot => h.unnamed fun hold => hnot ⟨hold.1, by simp⟩
      learns := fun _ => .inr rfl
      learning := nofun
      covers := behind_empty _ s
      settled := fun hcompleting => by cases hcompleting }

/-- The first page tells a run who answers. It has put nothing, so what it has touched are inputs of
the stream. -/
theorem Refetch.Inv.first {source : Identity} {cursor : String} {limit : Nat} (h : f.Inv s)
    (hphase : f.run.phase = .paging cursor) (hlimit : 0 < limit) (hsource : source.impl ≠ "")
    (hlearn : f.run.learn = true) : Refetch.Inv { f with
      run := { f.run with
        want := source
        learn := false
        phase := .learning ((s.sources source.site).snapshot source cursor limit) } } s := by
  have hanswers : f.answers = [] := h.unnamed fun hnamed => by simp [Run.Named, hlearn] at hnamed
  have hcursor : cursor = "" := by
    rcases h.learns hlearn with hstarted | hpaging
    · simp [hphase] at hstarted
    simpa [hphase] using hpaging
  have hnot (hnamed : Run.Named (J := J) { f.run with
      want := source
      learn := false
      phase := .learning ((s.sources source.site).snapshot source cursor limit) }) : False :=
    hnamed.2 _ rfl
  refine ⟨⟨?_, ?_⟩, fun hnamed => (hnot hnamed).elim, fun _ => hanswers, by simp,
    fun _ _ => hsource, ?_, by simp⟩
  · intro id r hr htouched
    have hbefore : f.Touched id r := htouched
    have hgood := h.tracks.good id r hr hbefore
    refine ⟨fun hnamed => (hnot hnamed).elim, hgood.newest, .inr ?_⟩
    rcases hgood.holds with ⟨a, ha, _⟩ | hinput
    · rw [hanswers] at ha
      cases ha
    exact hinput
  · exact h.tracks.present
  subst hcursor
  exact onPage_snapshot hlimit rfl

theorem selectRows_eq_nil {gen : Nat} (hnil : selectRows gen rows = []) {r : Stored J}
    (hr : rows.lookup id = some r) : r.alignedGen = some gen := by
  by_contra hmark
  have hmem : id ∈ rows.keys.filter fun id => (rows.lookup id).any (·.alignedGen ≠ some gen) := by
    refine mem_filter.mpr ⟨?_, by simp [hr, hmark]⟩
    rw [← AList.mem_keys, ← AList.lookup_isSome, hr]
    rfl
  rw [selectRows, take_eq_nil_iff] at hnil
  rcases hnil with hzero | hnil
  · cases hzero
  rw [← mem_insertionSort (· ≤ ·), hnil] at hmem
  cases hmem

theorem Refetch.Inv.learn_eq_false (h : f.Inv s) (hstarted : f.run.phase ≠ .started)
    (hpaging : f.run.phase ≠ .paging "") : f.run.learn = false := by
  by_contra hnot
  rcases h.learns (by simpa using hnot) with hphase | hphase
  · exact hstarted hphase
  exact hpaging hphase

/-- The rows of other generations are listed. When there is none, the run has touched every row. -/
theorem Refetch.Inv.select {run : Run J} (h : f.Inv s) (hphase : f.run.phase = .selecting)
    (hselect : f.run.select s.rows = some run) : Refetch.Inv { f with run := run } s := by
  have hlearn := h.learn_eq_false (by simp [hphase]) (by simp [hphase])
  have hnamed : f.run.Named := ⟨hlearn, by simp [hphase]⟩
  have hcovers : ∀ id, f.Stands s.sources id → (s.rows.lookup id).isSome := by
    have hcovers := h.covers
    rwa [Refetch.Covers, hphase] at hcovers
  simp only [Run.select, hphase] at hselect
  split at hselect
  next hnil =>
    cases hselect
    exact h.rephase rfl rfl rfl hnamed ⟨hlearn, by simp⟩ hcovers fun _ id r hr =>
      h.tracks.good id r hr (.inl (selectRows_eq_nil hnil hr))
  obtain ⟨_, ⟨⟩⟩ := ite_none_left_eq_some.mp hselect
  exact h.rephase rfl rfl rfl hnamed ⟨hlearn, by simp⟩ hcovers (by simp)

theorem Run.pending_state {r : Run J} {purgedAt : String → Option Nat} {a : Answer J}
    (ha : a ∈ r.pending purgedAt) : a.state ≠ .incomplete := by
  unfold Run.pending at ha
  split at ha
  · obtain ⟨rec, _, rfl⟩ := mem_map.mp ha
    simp [Record.answer]
  · obtain ⟨res, _, rfl⟩ := mem_map.mp ha
    unfold ReadResult.answer
    split <;> simp
  cases ha

/-- The run of the current generation writes a page or the reads of a round. -/
theorem Refetch.Inv.put {run : Run J} (h : f.Inv s)
    (hphase : (∃ cursor page, f.run.phase = .putting cursor page) ∨
      ∃ ids results, f.run.phase = .answered ids results) (hafter : f.run.afterPut = some run) :
    Refetch.Inv
      { f with run := run, answers := (f.run.pending f.purgedAt).reverse ++ f.answers }
      { s with rows := f.run.putAll s.rows (f.run.pending f.purgedAt) } := by
  have htracks := h.tracks.putAll (f.run.pending f.purgedAt)
  have hrows : ∀ id, (s.rows.lookup id).isSome →
      ((f.run.putAll s.rows (f.run.pending f.purgedAt)).lookup id).isSome :=
    fun id hid => putAll_isSome _ hid
  have hlearn : f.run.learn = false := by
    rcases hphase with ⟨cursor, page, hphase⟩ | ⟨ids, results, hphase⟩ <;>
      exact h.learn_eq_false (by simp [hphase]) (by simp [hphase])
  have hnamed : f.run.Named := by
    rcases hphase with ⟨cursor, page, hphase⟩ | ⟨ids, results, hphase⟩ <;>
      exact ⟨hlearn, by simp [hphase]⟩
  -- the answers are put under the phase the run is in; only then it goes on
  have hput : Refetch.Inv { f with answers := (f.run.pending f.purgedAt).reverse ++ f.answers }
      { s with rows := f.run.putAll s.rows (f.run.pending f.purgedAt) } :=
    { tracks := htracks
      named := h.named
      unnamed := fun hnot => absurd hnamed hnot
      learns := h.learns
      learning := h.learning
      covers := h.covers.mono hrows fun _ hid => hid
      settled := fun hcompleting => by
        rcases hphase with ⟨cursor, page, hphase⟩ | ⟨ids, results, hphase⟩ <;>
          exact absurd (hphase.symm.trans hcompleting) (by simp) }
  have hcovers := h.covers
  rcases hphase with ⟨cursor, page, hphase⟩ | ⟨ids, results, hphase⟩
  · rw [Refetch.Covers, hphase] at hcovers
    have hrecords : ∀ rec ∈ page.records,
        ((f.run.putAll s.rows (f.run.pending f.purgedAt)).lookup rec.id).isSome := by
      intro rec hrec
      refine htracks.present rec.answer (mem_append_left _ (mem_reverse.mpr ?_))
      simp only [Run.pending, hphase]
      exact mem_map_of_mem hrec
    have hnext := behind_of_page hcovers.1 hcovers.2 hrows hrecords
    simp only [Run.afterPut, hphase, some.injEq] at hafter
    subst hafter
    by_cases hlast : page.next = ""
    · refine hput.rephase rfl rfl rfl hnamed ⟨hlearn, by simp [hlast]⟩ ?_ (by simp [hlast])
      simp only [Refetch.Covers, hlast, if_true]
      exact fun id hstands => hnext id (.inl hlast) hstands
    refine hput.rephase rfl rfl rfl hnamed ⟨hlearn, by simp [hlast]⟩ ?_ (by simp [hlast])
    simp only [Refetch.Covers, hlast, if_false]
    exact fun id hle hstands => hnext id (.inr hle) hstands
  rw [Refetch.Covers, hphase] at hcovers
  simp only [Run.afterPut, hphase] at hafter
  obtain ⟨_, ⟨⟩⟩ := ite_none_right_eq_some.mp hafter
  exact hput.rephase rfl rfl rfl hnamed ⟨hlearn, by simp⟩
    (fun id hstands => hrows id (hcovers id hstands)) (by simp)

end Invariant
end BeSdk.Projection
