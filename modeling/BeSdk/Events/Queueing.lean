import BeSdk.Events.Queue

/-!
# What an advance queues

Every message that commits and matches is queued for the durable exactly once, although neither the
order of commits nor that of sequence numbers is the order in which the durable reads.

The position `(xid, seq)` is a complete record of the reading because nothing at or below it can
become visible later.  A position is the place of a row that was read under a snapshot whose xmin
was above the row's transaction ID.  Below such an xmin every transaction has finished, so no row
is added there and none becomes committed: that is `Grows`, which every step keeps.  What remains
is one batch (`ReadOk`): it was read without holes, and stays so until its advance commits, since
the subscription's row is locked.

`behind` counts the rows between the position and a message.  Once a snapshot has been above the
message's transaction it never grows, and every advance that commits makes it smaller.
-/

namespace BeSdk.Events.Pgqueue

open Runs List Function

/-- The places at which a worker holds the subscription's row. -/
def Pc.holds : Pc → Bool
  | .advancing | .read _ | .ordering | .picked _ => true
  | _ => false

def Action.enqueues : Action → Bool
  | .enqueue _ => true
  | _ => false

namespace Queue

variable {cfg : Config} {s s' t : Queue} {a : Action}

/-! ## What stays -/

/-- Below the horizon nothing changes any more. -/
structure Grows (s s' : Queue) : Prop where
  horizon : s.horizon ≤ s'.horizon
  settled : ∀ x < s.horizon, s'.xids x = s.xids x
  committed : ∀ x, s.xids x = some .committed → s'.xids x = some .committed
  messages : ∃ new, s'.messages = s.messages ++ new ∧ ∀ r ∈ new, s.horizon ≤ r.xid
  purged : ∀ q ∈ s.purged, q ∈ s'.purged

theorem Grows.of_eq (hhorizon : s.horizon ≤ s'.horizon) (hxids : s'.xids = s.xids)
    (hmessages : s'.messages = s.messages) (hpurged : s'.purged = s.purged) : Grows s s' where
  horizon := hhorizon
  settled _ _ := by rw [hxids]
  committed _ h := by rw [hxids]; exact h
  messages := ⟨[], by simp [hmessages], by simp⟩
  purged q hq := by rw [hpurged]; exact hq

/-- Below the horizon every transaction has finished. -/
def Finished (s : Queue) : Prop := ∀ x < s.horizon, s.xids x ≠ some .running

theorem le_of_running (h : Finished s) {x : Nat} (hx : s.xids x = some .running) :
    s.horizon ≤ x := by
  by_contra hlt
  exact h x (by omega) hx

theorem step_grows (h : Finished s) (hstep : step cfg s a = some s') : Grows s s' := by
  -- a transaction that is not below the horizon and has not committed changes its status
  have hstatus : ∀ x status, s.horizon ≤ x → s.xids x ≠ some .committed →
      Grows s { s with xids := update s.xids x status } := by
    intro x status hge hopen
    refine ⟨le_rfl, fun y hy => ?_, fun y hy => ?_, ⟨[], by simp, by simp⟩, fun _ h => h⟩
    · exact update_of_ne (by omega) _ _
    have hne : y ≠ x := by
      rintro rfl
      exact hopen hy
    exact (update_of_ne hne _ _).trans hy
  cases step_moves hstep with
  | @assign x hnew hfrom hfirst => exact hstatus x _ hfrom (by simp [hnew])
  | @insert x q m hrunning hnew =>
    exact ⟨le_rfl, fun _ _ => rfl, fun _ h => h, ⟨[⟨x, q, m⟩], rfl, by
      simpa using le_of_running h hrunning⟩, fun _ h => h⟩
  | @finish x commits hrunning =>
    exact hstatus x _ (le_of_running h hrunning) (by simp [hrunning])
  | readNothing | read => exact .of_eq (le_max_left _ _) rfl rfl rfl
  | purge => exact ⟨le_rfl, fun _ _ => rfl, fun _ h => h, ⟨[], by simp, by simp⟩, fun q hq =>
    mem_append_left _ hq⟩
  | _ => exact .of_eq le_rfl rfl rfl rfl

theorem step_finished (h : Finished s) (hstep : step cfg s a = some s') : Finished s' := by
  have hread : ∀ xmin, s.finishedBelow xmin = true →
      Finished { s with horizon := max s.horizon xmin } := fun xmin hbelow x hx => by
    rcases lt_max_iff.1 hx with hx | hx
    · exact h x hx
    exact of_decide_eq_true hbelow x hx
  cases step_moves hstep with
  | @assign x hnew hfrom hfirst =>
    intro y hy
    have hy : y < s.horizon := hy
    simpa [update_of_ne (show y ≠ x by omega)] using h y hy
  | @finish x commits hrunning =>
    intro y hy
    by_cases heq : y = x
    · subst heq
      cases commits <;> simp
    simpa [update_of_ne heq] using h y hy
  | readNothing _ hbelow => exact hread _ hbelow
  | read _ hbelow => exact hread _ hbelow
  | _ => exact h

/-! ## Who holds the subscription's row -/

def Held (s : Queue) : Prop := ∀ f, (s.workers f).holds = true → s.lock = some f

variable {f : Nat} {pc : Pc}

theorem Held.goTo (h : Held s)
    (hpc : pc.holds = true → (s.workers f).holds = true) : Held (s.goTo f pc) := by
  intro g hg
  by_cases heq : g = f
  · subst heq
    exact h g (hpc (by simpa [Queue.goTo] using hg))
  exact h g (by simpa [Queue.goTo, update_of_ne heq] using hg)

theorem Held.release (h : Held s) (hf : (s.workers f).holds = true)
    (hpc : pc.holds = false) : Held (s.release f pc) := by
  intro g hg
  by_cases heq : g = f
  · subst heq
    simp [Queue.release, Queue.goTo, hpc] at hg
  -- nobody else holds it
  have hg : (s.workers g).holds = true := by
    simpa [Queue.release, Queue.goTo, update_of_ne heq] using hg
  have hsame := (h g hg).symm.trans (h f hf)
  exact absurd (Option.some.inj hsame) heq

theorem Held.take (h : Held s) (hfree : s.lock = none) :
    Held { s.goTo f pc with lock := some f } := by
  intro g hg
  by_cases heq : g = f
  · rw [heq]
  have hg : (s.workers g).holds = true := by simpa [Queue.goTo, update_of_ne heq] using hg
  have hsome := h g hg
  rw [hfree] at hsome
  cases hsome

theorem after_holds (f : Nat) (d : Claimed) (err : Option String) :
    (after cfg f d err).holds = false := by
  unfold after
  split <;> rfl

theorem step_held (h : Held s) (hstep : step cfg s a = some s') : Held s' := by
  cases step_moves hstep with
  | advance _ hfree => exact h.take hfree
  | order _ hfree => exact h.take hfree
  | readNothing hat =>
    exact Held.release (s := { s with horizon := _ }) h (by simp [hat, Pc.holds]) rfl
  | read hat => exact Held.goTo (s := { s with horizon := _ }) h fun _ => by simp [hat, Pc.holds]
  | enqueue hat =>
    exact Held.release (s := s.enqueued cfg _) h (by simp [enqueued, hat, Pc.holds]) rfl
  | claim | claimGone =>
    exact Held.goTo (s := s.claims cfg _) h fun hpc => by simp [Pc.holds] at hpc
  | dropGone => exact Held.goTo (s := s.delete _) h fun hpc => by simp [Pc.holds] at hpc
  | pick hat => exact h.goTo fun _ => by simp [hat, Pc.holds]
  | pickNothing hat | takeNothing hat => exact h.release (by simp [hat, Pc.holds]) rfl
  | take hat => exact Held.release (s := s.claims cfg _) h (by simp [claims, hat, Pc.holds]) rfl
  | takeGone hat =>
    exact Held.release (s := (s.claims cfg _).delete _) h
      (by simp [claims, delete, hat, Pc.holds]) rfl
  | process =>
    exact Held.goTo (s := { s with inbox := _ }) h fun hpc => by simp [after_holds] at hpc
  | bury =>
    exact Held.goTo (s := { s with deadLetters := _ }) h fun hpc => by simp [Pc.holds] at hpc
  | settle => exact Held.goTo (s := s.settled cfg _ _) h fun hpc => by simp [Pc.holds] at hpc
  | @crash f =>
    intro g hg
    by_cases heq : g = f
    · subst heq
      simp [crashed, Queue.goTo, Pc.holds] at hg
    have hg : s.lock = some g := h g (by
      simpa [crashed, Queue.goTo, update_of_ne heq] using hg)
    simp [crashed, hg, heq]
  | _ => exact h

/-! ## The queue but for an advance's commit -/

/-- Everything but the commit of an advance leaves the position and what was queued, and only takes
deliveries away. -/
structure Keeps (s s' : Queue) : Prop where
  pos : s'.pos = s.pos
  queued : s'.queued = s.queued
  deliveries : (s'.deliveries.map Queued.seq).Sublist (s.deliveries.map Queued.seq)

theorem map_seq {f : Queued → Queued} (hf : ∀ d, (f d).seq = d.seq) (ds : List Queued) :
    (ds.map f).map Queued.seq = ds.map Queued.seq := by
  simp [comp_def, hf]

theorem filter_seq (p : Queued → Bool) (ds : List Queued) :
    ((ds.filter p).map Queued.seq).Sublist (ds.map Queued.seq) :=
  filter_sublist.map _

theorem claims_seq (q : Nat) :
    (s.claims cfg q).deliveries.map Queued.seq = s.deliveries.map Queued.seq :=
  map_seq (fun d => by split <;> rfl) _

theorem extended_seq (token : Nat) :
    (s.extended cfg token).deliveries.map Queued.seq = s.deliveries.map Queued.seq :=
  map_seq (fun d => by split <;> rfl) _

theorem settled_seq (d : Claimed) (out : Outcome) :
    ((s.settled cfg d out).deliveries.map Queued.seq).Sublist (s.deliveries.map Queued.seq) := by
  simp only [settled]
  split
  · exact filter_seq _ _
  rw [map_seq fun d => by split <;> rfl]

theorem step_keeps (hstep : step cfg s a = some s') (ha : ∀ f, a ≠ .enqueue f) : Keeps s s' := by
  cases step_moves hstep with
  | enqueue => exact absurd rfl (ha _)
  | claim | claimGone | take => exact ⟨rfl, rfl, (claims_seq _).symm ▸ Sublist.refl _⟩
  | dropGone | giveUp | purge => exact ⟨rfl, rfl, filter_seq _ _⟩
  | @takeGone _ q =>
    refine ⟨rfl, rfl, ?_⟩
    rw [← @claims_seq cfg s q]
    exact filter_seq _ _
  | inProgress => exact ⟨rfl, rfl, (extended_seq _).symm ▸ Sublist.refl _⟩
  | settle => exact ⟨rfl, rfl, settled_seq _ _⟩
  | _ => exact ⟨rfl, rfl, Sublist.refl _⟩

/-! ## One batch -/

variable {r : Stored}

theorem xid_le_of_place_le {r' : Stored} (h : r.place ≤ r'.place) : r.xid ≤ r'.xid := by
  rcases Prod.Lex.toLex_le_toLex.1 h with hlt | ⟨heq, -⟩
  · exact le_of_lt hlt
  exact le_of_eq heq

/-- The rows of an advance, from its read to its commit. -/
structure ReadOk (s : Queue) (rows : List Stored) : Prop where
  stored : ∀ r ∈ rows, r ∈ s.messages ∧ s.xids r.xid = some .committed ∧ s.pos < r.place ∧
    r.xid < s.horizon
  seqs : (rows.map Stored.seq).Nodup
  noHoles : ∃ last, rows.getLast? = some last ∧ (∀ r ∈ rows, r.place ≤ last.place) ∧
    ∀ r ∈ s.messages, s.visible r = true → s.pos < r.place → r.place ≤ last.place → r ∈ rows

theorem Grows.mem_messages (hg : Grows s s') (hr : r ∈ s.messages) : r ∈ s'.messages := by
  obtain ⟨new, hnew, -⟩ := hg.messages
  rw [hnew]
  exact mem_append_left _ hr

theorem Grows.old (hg : Grows s s') (hr : r ∈ s'.messages) (hlt : r.xid < s.horizon) :
    r ∈ s.messages := by
  obtain ⟨new, hnew, hge⟩ := hg.messages
  rw [hnew, mem_append] at hr
  rcases hr with hr | hr
  · exact hr
  have := hge r hr
  omega

theorem Grows.visible (hg : Grows s s') (hlt : r.xid < s.horizon)
    (hr : s'.visible r = true) : s.visible r = true := by
  simp only [Queue.visible, decide_eq_true_eq] at hr ⊢
  exact ⟨hg.settled _ hlt ▸ hr.1, fun h => hr.2 (hg.purged _ h)⟩

variable {rows : List Stored}

theorem ReadOk.grows (h : ReadOk s rows) (hg : Grows s s')
    (hpos : s'.pos = s.pos) : ReadOk s' rows := by
  obtain ⟨last, hlast, hle, hall⟩ := h.noHoles
  refine ⟨fun r hr => ?_, h.seqs, last, hlast, hle, fun r hr hvisible hgt hr_le => ?_⟩
  · obtain ⟨hmem, hcommitted, hgt, hlt⟩ := h.stored r hr
    exact ⟨hg.mem_messages hmem, hg.committed _ hcommitted, hpos ▸ hgt,
      lt_of_lt_of_le hlt hg.horizon⟩
  -- up to the last row nothing is new
  have hlt : r.xid < s.horizon :=
    lt_of_le_of_lt (xid_le_of_place_le hr_le) (h.stored last (mem_of_getLast? hlast)).2.2.2
  exact hall r (hg.old hr hlt) (hg.visible hlt hvisible) (hpos ▸ hgt) hr_le

variable {xmin : Nat}

theorem mem_unread (hr : r ∈ s.unread xmin) :
    r ∈ s.messages ∧ s.visible r = true ∧ s.pos < r.place ∧ r.xid < xmin := by
  simpa [unread] using Batch.mem_of_mem_batch hr

theorem readOk_unread (hseqs : (s.messages.map Stored.seq).Nodup) (hsome : s.unread xmin ≠ []) :
    ReadOk { s with horizon := max s.horizon xmin } (s.unread xmin) := by
  refine ⟨fun r hr => ?_, ?_, ?_⟩
  · obtain ⟨hmem, hvisible, hgt, hlt⟩ := mem_unread hr
    simp only [Queue.visible, decide_eq_true_eq] at hvisible
    exact ⟨hmem, hvisible.1, hgt, lt_max_of_lt_right hlt⟩
  · exact Batch.nodup_map_batch (hseqs.sublist (filter_sublist.map _))
  obtain ⟨last, hlast⟩ := Option.ne_none_iff_exists'.1 (mt getLast?_eq_none_iff.1 hsome)
  refine ⟨last, hlast, fun r hr => Batch.le_getLast hr hlast, fun r hr hvisible hgt hle => ?_⟩
  have hlt : r.xid < xmin :=
    lt_of_le_of_lt (xid_le_of_place_le hle) (mem_unread (mem_of_getLast? hlast)).2.2.2
  refine Batch.mem_batch_of_le ?_ ?_ hlast hle
  · intro r₁ hr₁ r₂ hr₂ heq
    have heq : toLex (r₁.xid, r₁.seq) = toLex (r₂.xid, r₂.seq) := heq
    have hseq : r₁.seq = r₂.seq := congrArg (fun p => (ofLex p).2) heq
    exact inj_on_of_nodup_map hseqs (mem_of_mem_filter hr₁) (mem_of_mem_filter hr₂) hseq
  have hvisible : s.visible r = true := hvisible
  simp [hr, hvisible, hlt, show s.pos < r.place from hgt]

/-- A worker that is where no step of this kind leads was there before. -/
theorem at_of_goTo {g : Nat} {pc' : Pc} (hsame : t.workers = s.workers) (hne : pc ≠ pc')
    (hat : (t.goTo g pc).workers f = pc') : s.workers f = pc' := by
  by_cases heq : f = g
  · subst heq
    exact absurd (by simpa [goTo] using hat) hne
  simpa [goTo, update_of_ne heq, hsame] using hat

theorem step_read (hstep : step cfg s a = some s') (hat : s'.workers f = .read rows) :
    s.workers f = .read rows ∨ ∃ xmin, a = .read f xmin ∧
      s' = goTo { s with horizon := max s.horizon xmin } f (.read (s.unread xmin)) ∧
      rows = s.unread xmin ∧ s.unread xmin ≠ [] := by
  cases step_moves hstep with
  | @read g xmin hadv hbelow hsome =>
    by_cases heq : f = g
    · subst heq
      refine .inr ⟨xmin, rfl, rfl, ?_, hsome⟩
      have hrows : Pc.read (s.unread xmin) = .read rows := by simpa [goTo] using hat
      injection hrows.symm
    exact .inl (by simpa [goTo, update_of_ne heq] using hat)
  | process =>
    refine .inl (at_of_goTo rfl (fun h => ?_) hat)
    have hnot : (Pc.read rows).holds = false := h ▸ after_holds _ _ _
    simp [Pc.holds] at hnot
  | _ => first | exact .inl hat | exact .inl (at_of_goTo rfl (by simp) hat)

/-! ## The table of messages -/

structure Table (s : Queue) : Prop where
  seqs : (s.messages.map Stored.seq).Nodup
  given : ∀ r ∈ s.messages, s.xids r.xid ≠ none
  normal : ∀ x, s.xids x ≠ none → 3 ≤ x

theorem step_table (h : Table s) (hstep : step cfg s a = some s') : Table s' := by
  cases step_moves hstep with
  | @assign x hnew hfrom hfirst =>
    refine ⟨h.seqs, fun r hr => ?_, fun y hy => ?_⟩
    · by_cases heq : r.xid = x
      · simp [heq]
      simpa [update_of_ne heq] using h.given r hr
    by_cases heq : y = x
    · omega
    exact h.normal y (by simpa [update_of_ne heq] using hy)
  | @insert x q m hrunning hnew =>
    refine ⟨?_, fun r hr => ?_, h.normal⟩
    · rw [map_append, nodup_append]
      refine ⟨h.seqs, nodup_singleton _, fun q₁ hq₁ q₂ hq₂ => ?_⟩
      obtain ⟨r, hr, rfl⟩ := mem_map.1 hq₁
      have hq₂ : q₂ = q := by simpa using hq₂
      rw [hq₂]
      exact hnew r hr
    rcases mem_append.1 hr with hr | hr
    · exact h.given r hr
    obtain rfl := mem_singleton.1 hr
    simp [hrunning]
  | @finish x commits hrunning =>
    refine ⟨h.seqs, fun r hr => ?_, fun y hy => ?_⟩
    · by_cases heq : r.xid = x
      · simp [heq]
      simpa [update_of_ne heq] using h.given r hr
    by_cases heq : y = x
    · exact h.normal y (by simp [heq, hrunning])
    exact h.normal y (by simpa [update_of_ne heq] using hy)
  | _ => exact ⟨h.seqs, h.given, h.normal⟩

/-! ## The invariant -/

def Wanted (cfg : Config) (s : Queue) (r : Stored) : Prop :=
  s.xids r.xid = some .committed ∧ Pgqueue.matches cfg.spec r.message.subject = true

structure Inv (cfg : Config) (s : Queue) : Prop where
  held : Held s
  finished : Finished s
  table : Table s
  pos : s.pos = cfg.start ∨ (ofLex s.pos).1 < s.horizon
  read : ∀ f rows, s.workers f = .read rows → ReadOk s rows
  once : s.queued.Nodup
  sound : ∀ q ∈ s.queued, ∃ r ∈ s.messages, r.seq = q ∧ Wanted cfg s r ∧ r.place ≤ s.pos
  complete : ∀ r ∈ s.messages, Wanted cfg s r → r.seq ∉ s.purged → r.place ≤ s.pos →
    r.seq ∈ s.queued
  deliveries : (s.deliveries.map Queued.seq).Sublist s.queued

/-- Nothing at the position or below it becomes visible any more. -/
theorem Inv.lt_horizon (h : Inv cfg s) (hfirst : 3 ≤ r.xid) (hle : r.place ≤ s.pos) :
    r.xid < s.horizon := by
  have hxid : r.xid ≤ (ofLex s.pos).1 := by
    rcases Prod.Lex.toLex_le_toLex.1 (show toLex (r.xid, r.seq) ≤ toLex (ofLex s.pos) from hle) with
      hlt | ⟨heq, -⟩
    · exact le_of_lt hlt
    exact le_of_eq heq
  rcases h.pos with hpos | hpos
  · have := cfg.start_lt
    rw [hpos] at hxid
    omega
  omega

theorem Wanted.grows (h : Wanted cfg s r) (hg : Grows s s') : Wanted cfg s' r :=
  ⟨hg.committed _ h.1, h.2⟩

/-- Every step but the commit of an advance. -/
theorem Inv.keep (h : Inv cfg s) (hstep : step cfg s a = some s') (ha : ∀ f, a ≠ .enqueue f) :
    Inv cfg s' := by
  have hg := step_grows h.finished hstep
  have hk := step_keeps hstep ha
  have htable := step_table h.table hstep
  refine ⟨step_held h.held hstep, step_finished h.finished hstep, htable, ?_, fun f rows hat => ?_,
    hk.queued ▸ h.once, fun q hq => ?_, fun r hr hwanted hpurged hle => ?_, ?_⟩
  · rw [hk.pos]
    exact h.pos.imp_right fun hlt => lt_of_lt_of_le hlt hg.horizon
  · rcases step_read hstep hat with hold | ⟨xmin, -, rfl, rfl, hsome⟩
    · exact (h.read f rows hold).grows hg hk.pos
    have hread := readOk_unread h.table.seqs hsome
    exact ⟨hread.stored, hread.seqs, hread.noHoles⟩
  · rw [hk.queued] at hq
    obtain ⟨r, hr, hseq, hwanted, hle⟩ := h.sound q hq
    exact ⟨r, hg.mem_messages hr, hseq, hwanted.grows hg, hk.pos.symm ▸ hle⟩
  · rw [hk.pos] at hle
    rw [hk.queued]
    have hlt := h.lt_horizon (htable.normal _ (htable.given r hr)) hle
    have hcommitted : s.xids r.xid = some .committed := by
      rw [← hg.settled _ hlt]
      exact hwanted.1
    exact h.complete r (hg.old hr hlt) ⟨hcommitted, hwanted.2⟩
      (fun hp => hpurged (hg.purged _ hp)) hle
  rw [hk.queued]
  exact hk.deliveries.trans h.deliveries

/-! ## The commit of an advance -/

/-- What an advance has read was not queued before. -/
theorem Inv.notMem_queued (h : Inv cfg s) (hread : ReadOk s rows)
    (hr : r ∈ rows) : r.seq ∉ s.queued := by
  intro hq
  obtain ⟨r', hr', hseq, -, hle⟩ := h.sound _ hq
  obtain ⟨hmem, -, hgt, -⟩ := hread.stored r hr
  obtain rfl := inj_on_of_nodup_map h.table.seqs hr' hmem hseq
  exact absurd hle (not_le_of_gt hgt)

/-- So the conflict clause leaves nothing out. -/
theorem Inv.mem_news (h : Inv cfg s) (hread : ReadOk s rows) {q : Nat} : q ∈ s.news cfg rows ↔
      ∃ r ∈ rows, Pgqueue.matches cfg.spec r.message.subject = true ∧ r.seq = q := by
  simp only [news, mem_filter, mem_map]
  constructor
  · rintro ⟨⟨r, ⟨hr, hmatches⟩, rfl⟩, -⟩
    exact ⟨r, hr, hmatches, rfl⟩
  rintro ⟨r, hr, hmatches, rfl⟩
  refine ⟨⟨r, ⟨hr, hmatches⟩, rfl⟩, ?_⟩
  have hnone : ∀ d ∈ s.deliveries, d.seq ≠ r.seq := by
    intro d hd heq
    have hq : d.seq ∈ s.queued := h.deliveries.subset (mem_map.2 ⟨d, hd, rfl⟩)
    exact h.notMem_queued hread hr (heq ▸ hq)
  simpa [hasDelivery] using hnone

theorem news_nodup (hread : ReadOk s rows) : (s.news cfg rows).Nodup :=
  hread.seqs.sublist (filter_sublist.trans (filter_sublist.map _))

theorem enqueued_pos {last : Stored} (hlast : rows.getLast? = some last) :
    (s.enqueued cfg rows).pos = last.place := by
  simp [enqueued, hlast]

theorem enqueued_seq (rows : List Stored) : (s.enqueued cfg rows).deliveries.map Queued.seq =
      s.deliveries.map Queued.seq ++ s.news cfg rows := by
  simp [enqueued, comp_def]

theorem Inv.enqueue (h : Inv cfg s) (hstep : step cfg s (.enqueue f) = some s') : Inv cfg s' := by
  have hheld := step_held h.held hstep
  have hfinished := step_finished h.finished hstep
  have htable := step_table h.table hstep
  have hmine : (s'.workers f).holds = false := by
    cases step_moves hstep
    simp [release, goTo, Pc.holds]
  cases step_moves hstep with
  | @enqueue _ rows hat =>
    have hread := h.read f rows hat
    obtain ⟨last, hlast, hle_last, hall⟩ := hread.noHoles
    have hpos : (s.enqueued cfg rows).pos = last.place := enqueued_pos hlast
    have hmem := mem_of_getLast? hlast
    have hgt : s.pos < last.place := (hread.stored last hmem).2.2.1
    refine ⟨hheld, hfinished, htable, .inr ?_, fun g rows' hat' => ?_, ?_, fun q hq => ?_,
      fun r hr hwanted hpurged hle => ?_, ?_⟩
    · change (ofLex (s.enqueued cfg rows).pos).1 < s.horizon
      rw [hpos]
      exact (hread.stored last hmem).2.2.2
    · -- nobody else is between its read and its commit
      exfalso
      rcases step_read hstep hat' with hold | ⟨xmin, hnot, -⟩
      · have hg : s.lock = some g := h.held g (by simp [hold, Pc.holds])
        have hf : s.lock = some f := h.held f (by simp [hat, Pc.holds])
        obtain rfl : g = f := by simpa [hg] using hf
        rw [hat'] at hmine
        simp [Pc.holds] at hmine
      cases hnot
    · refine nodup_append.2 ⟨h.once, news_nodup hread, fun q hq q' hq' => ?_⟩
      obtain ⟨r, hr, -, rfl⟩ := (h.mem_news hread).1 hq'
      rintro rfl
      exact h.notMem_queued hread hr hq
    · change ∃ r ∈ s.messages, r.seq = q ∧ Wanted cfg s r ∧ r.place ≤ (s.enqueued cfg rows).pos
      rw [hpos]
      rcases mem_append.1 hq with hq | hq
      · obtain ⟨r, hr, hseq, hwanted, hle⟩ := h.sound q hq
        exact ⟨r, hr, hseq, hwanted, hle.trans hgt.le⟩
      obtain ⟨r, hr, hmatches, hseq⟩ := (h.mem_news hread).1 hq
      obtain ⟨hr_mem, hcommitted, -, -⟩ := hread.stored r hr
      exact ⟨r, hr_mem, hseq, ⟨hcommitted, hmatches⟩, hle_last r hr⟩
    · have hle : r.place ≤ (s.enqueued cfg rows).pos := hle
      rw [hpos] at hle
      rcases le_or_gt r.place s.pos with hold | hnew
      · exact mem_append_left _ (h.complete r hr hwanted hpurged hold)
      have hvisible : s.visible r = true := by
        have hcommitted : s.xids r.xid = some .committed := hwanted.1
        have hpurged : r.seq ∉ s.purged := hpurged
        simp [visible, hcommitted, hpurged]
      exact mem_append_right _ ((h.mem_news hread).2
        ⟨r, hall r hr hvisible hnew hle, hwanted.2, rfl⟩)
    change ((s.enqueued cfg rows).deliveries.map Queued.seq).Sublist _
    rw [enqueued_seq]
    exact h.deliveries.append (Sublist.refl _)

theorem inv_step (h : Inv cfg s) (hstep : step cfg s a = some s') : Inv cfg s' := by
  by_cases ha : ∃ f, a = .enqueue f
  · obtain ⟨f, rfl⟩ := ha
    exact h.enqueue hstep
  exact h.keep hstep fun f heq => ha ⟨f, heq⟩

theorem inv_init (cfg : Config) : Inv cfg (init cfg) where
  held f hf := by simp [init, Pc.holds] at hf
  finished x hx := by simp [init] at hx
  table := ⟨nodup_nil, by simp [init], by simp [init]⟩
  pos := .inl rfl
  read f rows hat := by simp [init] at hat
  once := nodup_nil
  sound q hq := by simp [init] at hq
  complete r hr := by simp [init] at hr
  deliveries := Sublist.refl _

theorem inv_run {as : List Action} (h : Inv cfg s) (hrun : run (step cfg) s as = some t) :
    Inv cfg t :=
  run_invariant_of_step (fun _ _ _ h => inv_step h) h hrun

/-! ## Progress -/

/-- The rows between the position and a message, itself included. -/
def behind (s : Queue) (r : Stored) : Nat :=
  (s.messages.filter fun r' => s.pos < r'.place ∧ r'.place ≤ r.place).length

theorem step_pos_le (h : Inv cfg s) (hstep : step cfg s a = some s') : s.pos ≤ s'.pos := by
  by_cases ha : ∃ f, a = .enqueue f
  · obtain ⟨f, rfl⟩ := ha
    cases step_moves hstep with
    | @enqueue _ rows hat =>
      have hread := h.read f rows hat
      obtain ⟨last, hlast, -, -⟩ := hread.noHoles
      change s.pos ≤ (s.enqueued cfg rows).pos
      rw [enqueued_pos hlast]
      exact (hread.stored last (mem_of_getLast? hlast)).2.2.1.le
  exact (step_keeps hstep fun f heq => ha ⟨f, heq⟩).pos.ge

variable {bs : List Action}

theorem run_pos_le (h : Inv cfg s) (hrun : run (step cfg) s bs = some t) : s.pos ≤ t.pos := by
  have hboth : Inv cfg t ∧ s.pos ≤ t.pos :=
    run_invariant_of_step (P := fun u => Inv cfg u ∧ s.pos ≤ u.pos)
      (fun _ _ _ hu hstep => ⟨inv_step hu.1 hstep, hu.2.trans (step_pos_le hu.1 hstep)⟩)
      ⟨h, le_rfl⟩ hrun
  exact hboth.2

/-- Nothing comes between the position and a message below the horizon. -/
theorem behind_le (hg : Grows s s') (hpos : s.pos ≤ s'.pos) (hlt : r.xid < s.horizon) :
    s'.behind r ≤ s.behind r := by
  obtain ⟨new, hnew, hge⟩ := hg.messages
  have hnone : new.filter (fun r' => s'.pos < r'.place ∧ r'.place ≤ r.place) = [] := by
    refine filter_eq_nil_iff.2 fun r' hr' => ?_
    have hfrom := hge r' hr'
    simp only [decide_eq_true_eq, not_and]
    intro _ hle
    have := xid_le_of_place_le hle
    omega
  rw [behind, behind, hnew, filter_append, hnone, append_nil]
  refine (monotone_filter_right _ fun r' hr' => ?_).length_le
  simp only [decide_eq_true_eq] at hr' ⊢
  exact ⟨lt_of_le_of_lt hpos hr'.1, hr'.2⟩

/-- An advance that commits passes a row, or is past the message. -/
theorem behind_enqueue (h : Inv cfg s) (hstep : step cfg s (.enqueue f) = some s')
    (r : Stored) : s'.behind r < s.behind r ∨ r.place ≤ s'.pos := by
  cases step_moves hstep with
  | @enqueue _ rows hat =>
    have hread := h.read f rows hat
    obtain ⟨last, hlast, -, -⟩ := hread.noHoles
    obtain ⟨hmem, -, hgt, -⟩ := hread.stored last (mem_of_getLast? hlast)
    have hpos : (s.enqueued cfg rows).pos = last.place := enqueued_pos hlast
    rcases le_or_gt r.place last.place with hle | hlt
    · exact .inr (hpos ▸ hle)
    left
    have hsub : s.messages.filter (fun r' => last.place < r'.place ∧ r'.place ≤ r.place) =
        (s.messages.filter fun r' => s.pos < r'.place ∧ r'.place ≤ r.place).filter
          fun r' => last.place < r'.place := by
      rw [filter_filter]
      refine filter_congr fun r' _ => ?_
      have htrans : last.place < r'.place → s.pos < r'.place := hgt.trans
      rw [Bool.eq_iff_iff]
      simp only [Bool.and_eq_true, decide_eq_true_eq]
      tauto
    change (s.messages.filter fun r' => (s.enqueued cfg rows).pos < r'.place ∧
      r'.place ≤ r.place).length < s.behind r
    rw [hpos, hsub, behind]
    refine length_filter_lt_length_iff_exists.2 ⟨last, ?_, by simp⟩
    simp [hmem, hgt, hlt.le]

theorem run_behind (h : Inv cfg s) (hlt : r.xid < s.horizon) (hrun : run (step cfg) s bs = some t) :
    r.place ≤ t.pos ∨ t.behind r + bs.countP Action.enqueues ≤ s.behind r := by
  induction bs generalizing s with
  | nil =>
    obtain rfl := Option.some.inj hrun
    exact .inr (by simp)
  | cons a bs ih =>
    obtain ⟨u, hstep, hrest⟩ := run_cons_eq_some.1 hrun
    have hg := step_grows h.finished hstep
    have hle := behind_le hg (step_pos_le h hstep) hlt
    have hu := inv_step h hstep
    rcases ih hu (lt_of_lt_of_le hlt hg.horizon) hrest with hpast | hcounted
    · exact .inl hpast
    · cases hcount : a.enqueues with
      | false =>
        right
        rw [countP_cons_of_neg (by simp [hcount])]
        omega
      | true =>
        rw [countP_cons_of_pos hcount]
        cases a <;> simp [Action.enqueues] at hcount
        rcases behind_enqueue h hstep r with hless | hpast
        · right
          omega
        left
        exact hpast.trans (run_pos_le hu hrest)

theorem read_some (hat : s.workers f = .advancing)
    (hbelow : s.finishedBelow xmin = true) (hsome : s.unread xmin ≠ []) :
    ∃ t rows, step cfg s (.read f xmin) = some t ∧ t.workers f = .read rows := by
  obtain ⟨r, rows, hrows⟩ := exists_cons_of_ne_nil hsome
  refine ⟨goTo { s with horizon := max s.horizon xmin } f (.read (r :: rows)), r :: rows, ?_, ?_⟩
  · simp only [step, hat, hbelow, hrows, if_true]
  simp [goTo]

theorem run_wanted (h : Inv cfg s) (hr : r ∈ s.messages) (hwanted : Wanted cfg s r)
    (hrun : run (step cfg) s bs = some t) : r ∈ t.messages ∧ Wanted cfg t r := by
  have hall : Inv cfg t ∧ r ∈ t.messages ∧ Wanted cfg t r :=
    run_invariant_of_step (P := fun u => Inv cfg u ∧ r ∈ u.messages ∧ Wanted cfg u r)
      (fun _ _ _ hu hstep =>
        have hg := step_grows hu.1.finished hstep
        ⟨inv_step hu.1 hstep, hg.mem_messages hu.2.1, hu.2.2.grows hg⟩)
      ⟨h, hr, hwanted⟩ hrun
  exact hall.2

theorem behind_pos (hr : r ∈ s.messages) (hgt : s.pos < r.place) : 0 < s.behind r :=
  length_pos_of_mem (a := r) (by simp [hr, hgt])

/-- With something to read and the subscription's row free, an advance goes through. -/
theorem advance_goes_through (hr : r ∈ s.messages) (hvisible : s.visible r = true)
    (hgt : s.pos < r.place) (hxmin : r.xid < xmin)
    (hbelow : s.finishedBelow xmin = true) (hidle : s.workers f = .idle) (hfree : s.lock = none) :
    ∃ t, run (step cfg) s [.advance f, .read f xmin, .enqueue f] = some t := by
  have hsome : s.unread xmin ≠ [] := by
    intro hnil
    have hfilter := Batch.batch_eq_nil (by decide) hnil
    have hmem : r ∈ s.messages.filter fun r' =>
        s.visible r' ∧ s.pos < r'.place ∧ r'.xid < xmin := by
      simp [hr, hvisible, hgt, hxmin]
    rw [hfilter] at hmem
    cases hmem
  have hadvance : step cfg s (.advance f) = some { s.goTo f .advancing with lock := some f } := by
    simp [step, hidle, hfree]
  obtain ⟨u, rows, hread, hat⟩ : ∃ u rows, step cfg { s.goTo f .advancing with lock := some f }
      (.read f xmin) = some u ∧ u.workers f = .read rows :=
    read_some (by simp [goTo]) hbelow hsome
  have henqueue : step cfg u (.enqueue f) = some ((u.enqueued cfg rows).release f .idle) := by
    simp only [step, hat]
  exact ⟨_, run_cons_eq_some.2 ⟨_, hadvance, run_cons_eq_some.2 ⟨u, hread,
    run_cons_eq_some.2 ⟨_, henqueue, rfl⟩⟩⟩⟩

/-- **Queued exactly once.**  After every run: no message is queued twice, only committed messages
that match are, and such a message at or below the position has been queued unless it was purged.
From the moment a snapshot has been above its transaction, as many commits of advances as there are
rows up to it have queued it, whatever else happens; and while there is something to read, an
advance that finds the subscription's row free goes through. -/
theorem queued_exactly_once (cfg : Config) (as : List Action) (s : Queue)
    (hrun : run (step cfg) (init cfg) as = some s) :
    s.queued.Nodup ∧ (s.deliveries.map Queued.seq).Sublist s.queued ∧
    (∀ q ∈ s.queued, ∃ r ∈ s.messages, r.seq = q ∧ Wanted cfg s r) ∧
    (∀ r ∈ s.messages, Wanted cfg s r → r.seq ∉ s.purged → r.place ≤ s.pos → r.seq ∈ s.queued) ∧
    (∀ r ∈ s.messages, Wanted cfg s r → r.xid < s.horizon → ∀ bs t,
      run (step cfg) s bs = some t → s.behind r ≤ bs.countP Action.enqueues →
      r.seq ∉ t.purged → r.seq ∈ t.queued) ∧
    ∀ r ∈ s.messages, s.visible r = true → s.pos < r.place → ∀ f xmin, r.xid < xmin →
      s.finishedBelow xmin = true → s.workers f = .idle → s.lock = none →
      ∃ t, run (step cfg) s [.advance f, .read f xmin, .enqueue f] = some t := by
  have h : Inv cfg s := inv_run (inv_init cfg) hrun
  refine ⟨h.once, h.deliveries, fun q hq => ?_, h.complete,
    fun r hr hwanted hlt bs t hrest hcount hpurged => ?_,
    fun r hr hvisible hgt f xmin hxmin hbelow hidle hfree =>
      advance_goes_through hr hvisible hgt hxmin hbelow hidle hfree⟩
  · obtain ⟨r, hr, hseq, hwanted, -⟩ := h.sound q hq
    exact ⟨r, hr, hseq, hwanted⟩
  obtain ⟨hr', hwanted'⟩ := run_wanted h hr hwanted hrest
  refine (inv_run h hrest).complete r hr' hwanted' hpurged ?_
  rcases run_behind h hlt hrest with hpast | hcounted
  · exact hpast
  by_contra hnot
  have := behind_pos hr' (not_le.1 hnot)
  omega

/-- The message that commits late, with the smaller sequence number, is queued by the next advance,
and the other one is not queued again. -/
theorem queued_exactly_once_late_commit :
    ∃ s t, run (step (ordersQueue false)) (init (ordersQueue false))
        (lateCommit ++ [.finish 4 true, .advance 1, .read 1 5]) = some s ∧ s.queued = [2] ∧
      run (step (ordersQueue false)) s [.enqueue 1] = some t ∧ 1 ∈ t.queued ∧ s.queued.Nodup := by
  refine ⟨?s, ?t, ?hrun, ?hqueued, ?hrest, ?hin⟩
  case' hin => have h := queued_exactly_once (ordersQueue false) _ ?s ?hrun
  case hrun | hqueued | hrest => rfl
  refine ⟨?_, h.1⟩
  exact h.2.2.2.2.1 ⟨4, 1, ordered "late"⟩ (by decide) ⟨rfl, by decide⟩ (by decide) [.enqueue 1] _
    rfl (by decide) nofun

end Queue
end BeSdk.Events.Pgqueue
