import BeSdk.Events.Queueing

/-!
# What becomes of a queued message

A delivery is deleted in five ways: settled after the event was applied or its dead letter written,
settled with `nak` at the limit, dropped when its message is gone, given up when its last attempt
was never settled, or purged.  A worker deletes with its lease token, so what matters is that the
token still stands for the delivery the worker handled (`Leases`), and that a worker that is about
to settle with `ack` or `term` has recorded the event (`PcOk`).

By design an exhausted delivery whose last attempt was never settled is given up: its event was
neither applied nor recorded.  Two more ways to lose an event are left out here, where `Handle`
answers `nak` at the durable's limit: its dead letter could not be written (`Buried`), or the limit
of its own `Spec` is larger than the durable's.
-/

namespace BeSdk.Events.Pgqueue

open Runs List Function

/-- The lease of a worker: its token, and the delivery it was given for. -/
def Pc.lease : Pc → Option (Nat × Nat)
  | .gone token q => some (token, q)
  | .handling d | .burying d _ | .settling d _ => some (d.token, d.row.seq)
  | _ => none

namespace Queue

variable {cfg : Config} {s s' : Queue} {a : Action}

/-- The event was applied, or recorded as a dead letter. -/
def Handled (s : Queue) (m : Message) : Prop :=
  m.id ∈ s.inbox ∨ ∃ l ∈ s.deadLetters, l.eventID = m.id

/-- What may have become of a message that was queued. -/
def Fate (s : Queue) (q : Nat) : Prop :=
  (∃ d ∈ s.deliveries, d.seq = q) ∨ (∃ r ∈ s.messages, r.seq = q ∧ Handled s r.message) ∨
    q ∈ s.purged ∨ q ∈ s.givenUp

/-- The dead letter of a delivery at the durable's limit is written. -/
def Buried (cfg : Config) (s : Queue) : Action → Prop
  | .bury f .failed => ∀ d error, s.workers f = .burying d error → d.attempt < cfg.spec.maxDeliver
  | _ => True

/-! ## Records stay -/

structure Records (s s' : Queue) : Prop where
  messages : ∀ r ∈ s.messages, r ∈ s'.messages
  inbox : ∀ id ∈ s.inbox, id ∈ s'.inbox
  deadLetters : ∀ l ∈ s.deadLetters, l ∈ s'.deadLetters
  purged : ∀ q ∈ s.purged, q ∈ s'.purged
  givenUp : ∀ q ∈ s.givenUp, q ∈ s'.givenUp

theorem Handled.records {m : Message} (h : Handled s m) (hr : Records s s') : Handled s' m := by
  rcases h with h | ⟨l, hl, hid⟩
  · exact .inl (hr.inbox _ h)
  exact .inr ⟨l, hr.deadLetters l hl, hid⟩

variable {d : Claimed} {result : TxResult}

theorem mem_inboxAfter {claim : Except String Unit} {id : String}
    (h : id ∈ s.inbox) : id ∈ s.inboxAfter d claim result := by
  unfold inboxAfter
  split
  · exact h
  split
  · exact mem_cons_of_mem _ h
  exact h

theorem step_records (hstep : step cfg s a = some s') : Records s s' := by
  cases step_moves hstep with
  | insert =>
    exact ⟨fun r hr => mem_append_left _ hr, fun _ h => h, fun _ h => h, fun _ h => h,
    fun _ h => h⟩
  | process => exact ⟨fun _ h => h, fun _ h => mem_inboxAfter h, fun _ h => h, fun _ h => h,
      fun _ h => h⟩
  | bury =>
    refine ⟨fun _ h => h, fun _ h => h, fun l hl => ?_, fun _ h => h, fun _ h => h⟩
    simp only [buried]
    split
    · exact mem_cons_of_mem _ hl
    exact hl
  | giveUp => exact ⟨fun _ h => h, fun _ h => h, fun _ h => h, fun _ h => h,
      fun q hq => mem_append_left _ hq⟩
  | purge => exact ⟨fun _ h => h, fun _ h => h, fun _ h => h, fun q hq => mem_append_left _ hq,
      fun _ h => h⟩
  | _ => exact ⟨fun _ h => h, fun _ h => h, fun _ h => h, fun _ h => h, fun _ h => h⟩

/-! ## Leases -/

structure Leases (s : Queue) : Prop where
  fresh : ∀ d ∈ s.deliveries, ∀ k, d.leaseToken = some k → k < s.nextToken
  mine : ∀ f k q, (s.workers f).lease = some (k, q) →
    k < s.nextToken ∧ ∀ d ∈ s.deliveries, d.leaseToken = some k → d.seq = q

theorem Leases.keep (h : Leases s) (hnext : s'.nextToken = s.nextToken)
    (hdeliveries : ∀ d' ∈ s'.deliveries, ∀ k, d'.leaseToken = some k →
      ∃ d ∈ s.deliveries, d.leaseToken = some k ∧ d.seq = d'.seq)
    (hworkers : ∀ f l, (s'.workers f).lease = some l → (s.workers f).lease = some l) :
    Leases s' := by
  refine ⟨fun d' hd' k hk => ?_, fun f k q hf => ?_⟩
  · obtain ⟨d, hd, hdk, -⟩ := hdeliveries d' hd' k hk
    rw [hnext]
    exact h.fresh d hd k hdk
  obtain ⟨hlt, hmine⟩ := h.mine f k q (hworkers f _ hf)
  refine ⟨hnext ▸ hlt, fun d' hd' hk => ?_⟩
  obtain ⟨d, hd, hdk, hseq⟩ := hdeliveries d' hd' k hk
  rw [← hseq]
  exact hmine d hd hdk

/-- A claim gives a new token to the deliveries with its sequence number. -/
theorem Leases.claims (h : Leases s) (q : Nat) : Leases (s.claims cfg q) := by
  refine ⟨fun d' hd' k hk => ?_, fun f k q' hf => ?_⟩
  · obtain ⟨d, hd, rfl⟩ := mem_map.1 hd'
    change k < s.nextToken + 1
    split at hk
    · have hk : s.nextToken = k := by simpa [claimed] using hk
      omega
    have := h.fresh d hd k hk
    omega
  obtain ⟨hlt, hmine⟩ := h.mine f k q' hf
  refine ⟨Nat.lt_succ_of_lt hlt, fun d' hd' hk => ?_⟩
  obtain ⟨d, hd, rfl⟩ := mem_map.1 hd'
  split at hk
  · have hk : s.nextToken = k := by simpa [claimed] using hk
    omega
  rename_i hne
  rw [if_neg hne]
  exact hmine d hd hk

variable {q : Nat}

theorem Leases.seq_of_new (h : Leases s) {d : Queued}
    (hd : d ∈ (s.claims cfg q).deliveries) (hk : d.leaseToken = some s.nextToken) : d.seq = q := by
  obtain ⟨d₀, hd₀, rfl⟩ := mem_map.1 hd
  split at hk
  next hseq =>
    rw [if_pos hseq]
    exact hseq
  exact absurd (h.fresh d₀ hd₀ _ hk) (lt_irrefl _)

variable {f : Nat} {pc : Pc}

theorem Leases.goTo (h : Leases s) (hpc : ∀ k q, pc.lease = some (k, q) →
      k < s.nextToken ∧ ∀ d ∈ s.deliveries, d.leaseToken = some k → d.seq = q) :
    Leases (s.goTo f pc) := by
  refine ⟨h.fresh, fun g k q hg => ?_⟩
  by_cases heq : g = f
  · subst heq
    exact hpc k q (by simpa [Queue.goTo] using hg)
  exact h.mine g k q (by simpa [Queue.goTo, update_of_ne heq] using hg)

theorem message_seq {r : Stored} (h : s.message q = some r) : r ∈ s.messages ∧ r.seq = q := by
  have hmem := mem_of_find?_eq_some h
  have hcond := find?_some h
  simp only [decide_eq_true_eq] at hcond
  exact ⟨hmem, hcond.1⟩

theorem after_lease (f : Nat) (d : Claimed) (err : Option String) :
    (after cfg f d err).lease = some (d.token, d.row.seq) := by
  unfold after
  split <;> rfl

section
variable (h : Leases s)
include h

theorem Leases.give (hpc : pc.lease = some (s.nextToken, q)) :
    Leases ((s.claims cfg q).goTo f pc) := by
  refine (h.claims q).goTo fun k q' hk => ?_
  obtain ⟨rfl, rfl⟩ : s.nextToken = k ∧ q = q' := by simpa [hpc] using hk
  exact ⟨Nat.lt_succ_self _, fun d hd hdk => h.seq_of_new hd hdk⟩

theorem Leases.sub {ds : List Queued} (hsub : ∀ d ∈ ds, d ∈ s.deliveries) :
    Leases { s with deliveries := ds } :=
  h.keep rfl (fun d hd _ hk => ⟨d, hsub d hd, hk, rfl⟩) fun _ _ hl => hl

/-- A worker goes on with the lease it has, or without one. -/
theorem Leases.goOn
    (hpc : pc.lease = none ∨ pc.lease = (s.workers f).lease) : Leases (s.goTo f pc) := by
  refine h.goTo fun k q hk => ?_
  rcases hpc with hnone | hsame
  · simp [hnone] at hk
  exact h.mine f k q (hsame ▸ hk)

theorem Leases.settled (d : Claimed) (out : Outcome) : Leases (s.settled cfg d out) := by
  refine h.keep rfl (fun row' hrow' k hk => ?_) fun _ _ hl => hl
  simp only [Queue.settled] at hrow'
  split at hrow'
  · exact ⟨row', mem_of_mem_filter hrow', hk, rfl⟩
  obtain ⟨row, hrow, rfl⟩ := mem_map.1 hrow'
  split at hk
  · cases hk
  rename_i hnot
  rw [if_neg hnot]
  exact ⟨row, hrow, hk, rfl⟩

theorem Leases.extended (token : Nat) : Leases (s.extended cfg token) := by
  refine h.keep rfl (fun row' hrow' k hk => ?_) fun _ _ hl => hl
  obtain ⟨row, hrow, rfl⟩ := mem_map.1 hrow'
  split at hk <;> rename_i hif <;> simp only [hif] <;> exact ⟨row, hrow, hk, rfl⟩

theorem Leases.enqueued (rows : List Stored) : Leases (s.enqueued cfg rows) := by
  refine h.keep rfl (fun d hd k hk => ?_) fun _ _ hl => hl
  rcases mem_append.1 hd with hd | hd
  · exact ⟨d, hd, hk, rfl⟩
  obtain ⟨q, -, rfl⟩ := mem_map.1 hd
  cases hk

theorem Leases.congr (hdeliveries : s'.deliveries = s.deliveries)
    (hworkers : s'.workers = s.workers) (hnext : s'.nextToken = s.nextToken) : Leases s' :=
  ⟨by rw [hdeliveries, hnext]; exact h.fresh, by rw [hdeliveries, hnext, hworkers]; exact h.mine⟩

theorem Leases.free (f : Nat) (hpc : pc.lease = none)
    (hdeliveries : s'.deliveries = s.deliveries) (hworkers : s'.workers = (s.goTo f pc).workers)
    (hnext : s'.nextToken = s.nextToken) : Leases s' :=
  (h.goOn (f := f) (.inl hpc)).congr hdeliveries hworkers hnext

theorem step_leases (hstep : step cfg s a = some s') : Leases s' := by
  have hfilter : ∀ p : Queued → Bool, Leases { s with deliveries := s.deliveries.filter p } :=
    fun p => h.sub fun d hd => mem_of_mem_filter hd
  have hidle : Pc.lease .idle = none := rfl
  cases step_moves hstep with
  | @advance f => exact h.free f (by rfl : Pc.lease .advancing = none) rfl rfl rfl
  | @readNothing f => exact h.free f hidle rfl rfl rfl
  | @read f xmin => exact h.free f (by rfl : (Pc.read (s.unread xmin)).lease = none) rfl rfl rfl
  | @enqueue f rows => exact (h.enqueued rows).free f hidle rfl rfl rfl
  | claim _ _ _ hr => exact h.give (by rw [Pc.lease, (message_seq hr).2])
  | claimGone => exact h.give rfl
  | @dropGone f => exact (hfilter _).free f hidle rfl rfl rfl
  | @order f => exact h.free f (by rfl : Pc.lease .ordering = none) rfl rfl rfl
  | @pick f d => exact h.free f (by rfl : (Pc.picked d.seq).lease = none) rfl rfl rfl
  | @pickNothing f => exact h.free f hidle rfl rfl rfl
  | @takeNothing f => exact h.free f hidle rfl rfl rfl
  | take _ _ hr => exact (h.give (by rw [Pc.lease, (message_seq hr).2])).congr rfl rfl rfl
  | @takeGone f q =>
    have hdeleted : Leases ((s.claims cfg q).delete s.nextToken) :=
      (h.claims q).sub fun d hd => mem_of_mem_filter hd
    exact hdeleted.free f hidle rfl rfl rfl
  | inProgress => exact h.extended _
  | @process f claim result err d hat =>
    have hgoes : Leases (s.goTo f (after cfg f d (processError d claim result err))) :=
      h.goOn (.inr (by rw [after_lease, hat, Pc.lease]))
    exact hgoes.congr rfl rfl rfl
  | @bury f result d error hat =>
    have hgoes : Leases (s.goTo f (.settling d (if result = .committed then .term else .nak))) :=
      h.goOn (.inr (by rw [hat, Pc.lease, Pc.lease]))
    exact hgoes.congr rfl rfl rfl
  | @settle f => exact (h.settled _ _).free f hidle rfl rfl rfl
  | giveUp | purge => exact (hfilter _).congr rfl rfl rfl
  | @crash f => exact h.free f hidle rfl rfl rfl
  | _ => exact h.congr rfl rfl rfl

end

/-! ## What a worker knows -/

/-- What is true where a worker is. -/
def PcOk (cfg : Config) (s : Queue) : Pc → Prop
  | .gone _ q => q ∈ s.purged
  | .handling d | .burying d _ => d.row ∈ s.messages
  | .settling d out => d.row ∈ s.messages ∧
      (Handled s d.row.message ∨ out = .nak ∧ d.attempt < cfg.spec.maxDeliver)
  | _ => True

theorem PcOk.records (h : PcOk cfg s pc) (hr : Records s s') : PcOk cfg s' pc := by
  cases pc with
  | gone token q => exact hr.purged q h
  | handling d => exact hr.messages _ h
  | burying d error => exact hr.messages _ h
  | settling d out => exact ⟨hr.messages _ h.1, h.2.imp_left fun hh => hh.records hr⟩
  | _ => trivial

/-- A queued message that cannot be found was purged. -/
theorem purged_of_message_none (h : Inv cfg s) {d : Queued} (hd : d ∈ s.deliveries)
    (hnone : s.message d.seq = none) : d.seq ∈ s.purged := by
  obtain ⟨r, hr, hseq, hwanted, -⟩ := h.sound _ (h.deliveries.subset (mem_map.2 ⟨d, hd, rfl⟩))
  by_contra hnot
  have hfound := find?_eq_none.1 hnone r hr
  simp [hseq, visible, hwanted.1, hnot] at hfound

theorem mem_of_find {d : Queued}
    (hd : s.deliveries.find? (fun d => d.seq = q) = some d) : d ∈ s.deliveries ∧ d.seq = q := by
  have hcond := find?_some hd
  exact ⟨mem_of_find?_eq_some hd, by simpa using hcond⟩

theorem applied_of_no_error {claim : Except String Unit}
    {err : String} (h : processError d claim result err = none) :
    d.row.message.id ∈ s.inboxAfter d claim result := by
  unfold processError at h
  unfold inboxAfter
  split at h
  · cases h
  next r hreceive =>
    rw [hreceive, ← receive_id hreceive]
    by_cases hmem : r.id ∈ s.inbox <;> simp [TxResult.applied, hmem]
  cases h

theorem buried_handled {error : String}
    (h : result.applied = true) : Handled (s.buried f d error result) d.row.message := by
  refine .inr ?_
  simp only [buried]
  split
  · exact ⟨_, mem_cons_self, rfl⟩
  rename_i hnot
  by_contra hnone
  exact hnot ⟨h, fun l hl hid => hnone ⟨l, hl, hid⟩⟩

theorem pcOk_after (hlimit : ∀ f, (cfg.consumer f).spec.maxDeliver ≤ cfg.spec.maxDeliver)
    {err : Option String} (hrow : d.row ∈ s.messages)
    (happlied : err = none → Handled s d.row.message) : PcOk cfg s (after cfg f d err) := by
  unfold after Consumer.afterProcess
  cases err with
  | none => exact ⟨hrow, .inl (happlied rfl)⟩
  | some error =>
    dsimp only
    by_cases hless : d.attempt < (cfg.consumer f).spec.maxDeliver
    · rw [if_pos hless]
      exact ⟨hrow, .inr ⟨rfl, lt_of_lt_of_le hless (hlimit f)⟩⟩
    rw [if_neg hless]
    exact hrow

def WorkersOk (cfg : Config) (s : Queue) : Prop := ∀ f, PcOk cfg s (s.workers f)

theorem WorkersOk.goTo (h : WorkersOk cfg s) (hr : Records s s')
    (hworkers : s'.workers = (s.goTo f pc).workers) (hpc : PcOk cfg s' pc) : WorkersOk cfg s' := by
  intro g
  rw [hworkers]
  by_cases heq : g = f
  · subst heq
    simpa [Queue.goTo] using hpc
  simpa [Queue.goTo, update_of_ne heq] using (h g).records hr

theorem step_workersOk (hlimit : ∀ f, (cfg.consumer f).spec.maxDeliver ≤ cfg.spec.maxDeliver)
    (hinv : Inv cfg s) (h : WorkersOk cfg s) (hok : Buried cfg s a)
    (hstep : step cfg s a = some s') : WorkersOk cfg s' := by
  have hr := step_records hstep
  cases step_moves hstep with
  | claim _ _ _ hmessage | take _ _ hmessage => exact h.goTo hr rfl (message_seq hmessage).1
  | claimGone _ hd _ hnone =>
    obtain ⟨hmem, rfl⟩ := mem_of_find hd
    exact h.goTo hr rfl (purged_of_message_none hinv hmem hnone)
  | @process f claim result err d hat =>
    refine h.goTo hr rfl (pcOk_after hlimit ?_ fun hnone => .inl (applied_of_no_error hnone))
    have hpc := h f
    rw [hat] at hpc
    exact hpc
  | @bury f result d error hat =>
    have hrow : d.row ∈ s.messages := by
      have hpc := h f
      rw [hat] at hpc
      exact hpc
    refine h.goTo hr rfl ⟨hrow, ?_⟩
    cases result with
    | committed | answerLost => exact .inl (buried_handled rfl)
    | failed => exact .inr ⟨rfl, hok d error hat⟩
  | assign | insert | finish | inProgress | giveUp | purge | tick => exact fun f => (h f).records hr
  | _ => exact h.goTo hr rfl trivial

/-! ## Fates -/

/-- A delivery that goes with a lease token is the one its worker was given. -/
theorem Leases.seq_of_leased (h : Leases s) {k : Nat} (hf : (s.workers f).lease = some (k, q))
    {d : Queued} (hd : d ∈ s.deliveries) (hleased : leased k d = true) : d.seq = q := by
  simp only [leased, Bool.and_eq_true, decide_eq_true_eq] at hleased
  exact (h.mine f k q hf).2 d hd hleased.1

/-- What a worker settles is back in the queue, or handled. -/
theorem fate_settled (hleases : Leases s) (hworkers : WorkersOk cfg s) {out : Outcome}
    (hat : s.workers f = .settling d out) {row : Queued} (hrow : row ∈ s.deliveries) :
    Fate (s.settled cfg d out) row.seq := by
  have hpc := hworkers f
  rw [hat] at hpc
  by_cases hleased : leased d.token row = true
  · have hseq : row.seq = d.row.seq := hleases.seq_of_leased (by rw [hat, Pc.lease]) hrow hleased
    rcases hpc.2 with hhandled | ⟨rfl, hless⟩
    · exact .inr (.inl ⟨d.row, hpc.1, hseq.symm, hhandled⟩)
    -- it goes back, since the limit is not reached
    refine .inl ?_
    have hback : ¬ (Outcome.nak = .ack ∨ Outcome.nak = .term ∨
        (Outcome.nak = .nak ∧ d.attempt ≥ cfg.spec.maxDeliver)) := by
      simp
      omega
    have hmap : (s.settled cfg d .nak).deliveries = _ := if_neg hback
    rw [hmap]
    refine ⟨_, mem_map.2 ⟨row, hrow, rfl⟩, ?_⟩
    rw [if_pos hleased]
  refine .inl ⟨row, ?_, rfl⟩
  simp only [settled]
  split
  · exact mem_filter.2 ⟨hrow, by simp [hleased]⟩
  exact mem_map.2 ⟨row, hrow, if_neg hleased⟩

theorem fate_of_delivery (hinv : Inv cfg s) (hleases : Leases s) (hworkers : WorkersOk cfg s)
    (hstep : step cfg s a = some s') {d : Queued} (hd : d ∈ s.deliveries) : Fate s' d.seq := by
  have hclaims : ∀ q, ∃ d' ∈ (s.claims cfg q).deliveries, d'.seq = d.seq := fun q =>
    ⟨_, mem_map.2 ⟨d, hd, rfl⟩, by split <;> rfl⟩
  have hfilter : ∀ p : Queued → Bool, p d = true → ∃ d' ∈ s.deliveries.filter p, d'.seq = d.seq :=
    fun p hp => ⟨d, mem_filter.2 ⟨hd, hp⟩, rfl⟩
  cases step_moves hstep with
  | enqueue => exact .inl ⟨d, mem_append_left _ hd, rfl⟩
  | claim | claimGone | take => exact .inl (hclaims _)
  | @dropGone f token q hat =>
    by_cases hleased : leased token d = true
    · have hseq : d.seq = q := hleases.seq_of_leased (by rw [hat, Pc.lease]) hd hleased
      have hpurged := hworkers f
      rw [hat] at hpurged
      exact .inr (.inr (.inl (hseq ▸ hpurged)))
    exact .inl (hfilter _ (by simp [hleased]))
  | @takeGone f q d₀ hat hd₀ hnone =>
    by_cases hseq : d.seq = q
    · refine .inr (.inr (.inl ?_))
      exact purged_of_message_none hinv hd (hseq ▸ hnone)
    -- no other delivery has the new token
    refine .inl ⟨d, mem_filter.2 ⟨mem_map.2 ⟨d, hd, if_neg hseq⟩, ?_⟩, rfl⟩
    have hold : d.leaseToken ≠ some s.nextToken := fun hk =>
      absurd (hleases.fresh d hd _ hk) (lt_irrefl _)
    simp [leased, hold]
  | @inProgress f e => exact .inl ⟨_, mem_map.2 ⟨d, hd, rfl⟩, by split <;> rfl⟩
  | @settle f e out hat => exact fate_settled hleases hworkers hat hd
  | giveUp =>
    by_cases hexhausted : s.exhausted cfg d = true
    · refine .inr (.inr (.inr (mem_append_right _ ?_)))
      exact mem_map.2 ⟨d, mem_filter.2 ⟨hd, hexhausted⟩, rfl⟩
    exact .inl (hfilter _ (by simp [hexhausted]))
  | @purge qs =>
    by_cases hmem : d.seq ∈ qs
    · exact .inr (.inr (.inl (mem_append_right _ hmem)))
    exact .inl (hfilter _ (by simp [hmem]))
  | _ => exact .inl ⟨d, hd, rfl⟩

theorem step_queued (hstep : step cfg s a = some s') (hq : q ∈ s'.queued) :
    q ∈ s.queued ∨ ∃ d ∈ s'.deliveries, d.seq = q := by
  by_cases ha : ∃ f, a = .enqueue f
  · obtain ⟨f, rfl⟩ := ha
    cases step_moves hstep with
    | enqueue =>
      rcases mem_append.1 hq with hq | hq
      · exact .inl hq
      exact .inr ⟨_, mem_append_right _ (mem_map.2 ⟨q, hq, rfl⟩), rfl⟩
  rw [(step_keeps hstep fun f heq => ha ⟨f, heq⟩).queued] at hq
  exact .inl hq

structure FatesOk (cfg : Config) (s : Queue) : Prop where
  inv : Inv cfg s
  leases : Leases s
  workers : WorkersOk cfg s
  fates : ∀ q ∈ s.queued, Fate s q

theorem fatesOk_step (hlimit : ∀ f, (cfg.consumer f).spec.maxDeliver ≤ cfg.spec.maxDeliver)
    (h : FatesOk cfg s) (hok : Buried cfg s a) (hstep : step cfg s a = some s') :
    FatesOk cfg s' := by
  have hr := step_records hstep
  refine ⟨inv_step h.inv hstep, step_leases h.leases hstep,
    step_workersOk hlimit h.inv h.workers hok hstep, fun q hq => ?_⟩
  rcases step_queued hstep hq with hold | hnew
  · rcases h.fates q hold with ⟨d, hd, rfl⟩ | ⟨r, hmem, hseq, hhandled⟩ | hpurged | hgiven
    · exact fate_of_delivery h.inv h.leases h.workers hstep hd
    · exact .inr (.inl ⟨r, hr.messages r hmem, hseq, hhandled.records hr⟩)
    · exact .inr (.inr (.inl (hr.purged q hpurged)))
    exact .inr (.inr (.inr (hr.givenUp q hgiven)))
  exact .inl hnew

theorem fatesOk_init (cfg : Config) : FatesOk cfg (init cfg) where
  inv := inv_init cfg
  leases := ⟨by simp [init], by simp [init, Pc.lease]⟩
  workers f := trivial
  fates q hq := by simp [init] at hq

/-- **No event disappears but by design.**  Where no consumer's limit is above the durable's, in
every run in which no dead letter of a delivery at the limit fails to be written, a message that
was queued is still queued, or its event was applied, or recorded as a dead letter, or the message
was purged, or its delivery was given up: exhausted, and its last attempt never settled. -/
theorem queued_message_fate (cfg : Config)
    (hlimit : ∀ f, (cfg.consumer f).spec.maxDeliver ≤ cfg.spec.maxDeliver) (as : List Action)
    (s : Queue) (hmeets : Meets (step cfg) (Buried cfg) (init cfg) as)
    (hrun : run (step cfg) (init cfg) as = some s) : ∀ q ∈ s.queued, Fate s q := by
  have h : FatesOk cfg s :=
    run_invariant (fun _ _ _ h => fatesOk_step hlimit h) (fatesOk_init cfg) hmeets hrun
  exact h.fates

def oneQueued : List Action :=
  [.assign 3, .insert 3 1 (ordered "one"), .finish 3 true, .advance 0, .read 0 4, .enqueue 0]

/-- An attempt whose lease runs out and a second one that applies the event. -/
theorem queued_message_fate_second_attempt :
    ∃ s, run (step (ordersQueue false)) (init (ordersQueue false))
        (oneQueued ++ [.claim 0 1, .crash 0, .tick 30001, .claim 1 1,
          .process 1 (.ok ()) .committed "", .settle 1]) = some s ∧
      s.deliveries = [] ∧ s.inbox = ["one"] ∧ ∀ q ∈ s.queued, Fate s q := by
  have hlimit : (3 : Int) ≤ 3 := le_rfl
  refine ⟨?s, ?hrun, ?hdeliveries, ?hinbox, queued_message_fate (ordersQueue false)
    (fun _ => hlimit) _ ?s (.of_always (by simp [oneQueued, Buried])) ?hrun⟩
  case hrun | hdeliveries | hinbox => rfl

/-- Three attempts that crash: the delivery is given up, and its event was neither applied nor
recorded. -/
theorem given_up_unhandled :
    ∃ s, run (step (ordersQueue false)) (init (ordersQueue false))
        (oneQueued ++ [.claim 0 1, .crash 0, .tick 30001, .claim 0 1, .crash 0, .tick 60002,
          .claim 0 1, .crash 0, .tick 90003, .giveUp]) = some s ∧
      1 ∈ s.queued ∧ s.deliveries = [] ∧ s.inbox = [] ∧ s.deadLetters = [] ∧ s.purged = [] :=
  ⟨_, rfl, by decide, rfl, rfl, rfl, rfl⟩

end Queue
end BeSdk.Events.Pgqueue
