import Mathlib.Data.List.Induction
import Mathlib.Data.List.Perm.Basic
import Mathlib.Logic.Function.Iterate
import Mathlib.Logic.Relation

/-!
# The trust history

`runprofile/trust.go`: which revocations count, and whether a signer's chain vouched for a record.
A chain ends at a trusted CA when its leaf is one or verifies against one; the CAs are walked in a
map's order, a new one in every walk, and the first that fits is the chain's anchor, whose
revocation is looked at with the chain's own.

What is outside is a parameter: fingerprints, the parsing of certificates and records, X.509
verification of a leaf against one CA, and signatures.  A CA is known by its certificate, since
every entry of the code's maps has the fingerprint of its certificate as its key.
-/

namespace BeSdk.Runprofile

open List

/-- A certificate's DER. -/
abbrev Der := String

/-- `TrustBody`, as far as BuildTrust reads it. -/
structure TrustBody where
  event : String
  ca : String := ""
  previous : String := ""
  next : String := ""
  fingerprint : String := ""
deriving DecidableEq, Repr

/-- Certificates and records, `ρ`, as the libraries read them. -/
structure Reading (ρ : Type) where
  fingerprint : Der → String
  fingerprint_ne : ∀ d, fingerprint d ≠ ""
  parses : Der → Bool
  -- the leaf, the intermediates, the one CA and the time
  verifies : Der → List Der → Der → Int → Bool
  parsePEM : String → Option Der
  body : ρ → Option TrustBody
  chainOf : ρ → Option (List Der)
  verifySignature : ρ → Der → Bool
  verifyAcceptance : ρ → Der → Bool

structure Rotation where
  previous : String
  next : String
  signed : Bool
  accepted : Bool
deriving DecidableEq, Repr

structure Revocation where
  fingerprint : String
  at_ : Int
deriving DecidableEq, Repr

/-- A trust record with the time the store received it. -/
structure TrustRecord (ρ : Type) where
  record : ρ
  received : Int

variable {ρ : Type} (x : Reading ρ)

def revokedAt (chain : List String) (t : Int) (revocations : List Revocation) (skew : Int) : Bool :=
  chain.any fun fp => revocations.any fun r => r.fingerprint = fp ∧ r.at_ - skew < t

/-! ## A chain -/

/-- The chain's leaf is the CA or verifies against it. -/
def endsAt (chain : List Der) (t : Int) (ca : Der) : Bool :=
  match chain with
  | [] => false
  | leaf :: rest =>
    x.parses leaf && (x.fingerprint leaf = x.fingerprint ca ||
      x.verifies leaf (rest.filter fun d => x.parses d) ca t)

/-- `anchorOf`, for the CAs in the order they are walked in. -/
def anchorOf (walk : List Der) (chain : List Der) (t : Int) : String :=
  match walk.find? (endsAt x chain t) with
  | some ca => x.fingerprint ca
  | none => ""

structure TrustHistory where
  skew : Int
  trusted : List Der
  revocations : List Revocation

inductive Refusal
  | noTrustedCA
  | revoked
deriving DecidableEq, Repr

/-- `Holds`, with the walks of its two calls of anchorOf. -/
def holds (h : TrustHistory) (walk walk' : List Der) (chain : List Der) (t : Int) :
    Except Refusal Unit :=
  if anchorOf x walk chain t = "" then .error .noTrustedCA
  else
    let ca := anchorOf x walk' chain t
    let fps := chain.map x.fingerprint ++ if ca ≠ "" then [ca] else []
    if revokedAt fps t h.revocations h.skew then .error .revoked else .ok ()

/-! ## BuildTrust -/

/-- `TrustedCAs`: back along the rotations.  A pass that changes something adds a CA of a rotation,
so that after as many passes as rotations nothing changes. -/
def trustedCAs (configured : List String) (rotations : List Rotation) : List String :=
  let pass (trusted : List String) : List String :=
    rotations.foldl (fun trusted r =>
      if r.next ∈ trusted ∧ r.signed ∧ r.accepted ∧ r.previous ∉ trusted then r.previous :: trusted
      else trusted) trusted
  Nat.iterate pass rotations.length configured

/-- What BuildTrust collects from the records. -/
structure Collected (ρ : Type) where
  known : List Der
  rotations : List Rotation := []
  revokes : List (String × TrustRecord ρ) := []

/-- One record of BuildTrust's first loop. -/
def collect (c : Collected ρ) (tr : TrustRecord ρ) : Collected ρ :=
  match x.body tr.record with
  | none => c
  | some b =>
    if b.event = "anchor" then
      match x.parsePEM b.ca with
      | some ca => { c with known := ca :: c.known }
      | none => c
    else if b.event = "rotation" then
      match x.parsePEM b.ca with
      | none => c
      | some next =>
        if x.fingerprint next ≠ b.next then c
        else
          let previous := (x.chainOf tr.record).bind fun chain => chain.getLast?.filter fun d =>
            x.fingerprint d = b.previous ∧ x.parses d
          { c with
            known := previous.toList ++ next :: c.known
            rotations := c.rotations ++ [{
              previous := b.previous
              next := b.next
              signed := previous.any (x.verifySignature tr.record)
              accepted := x.verifyAcceptance tr.record next }] }
    else if b.event = "revoke" then { c with revokes := c.revokes ++ [(b.fingerprint, tr)] }
    else c

/-- A revocation's signer chains to a trusted CA when it was received, and signed it. -/
def counts (trusted : List Der) (tr : TrustRecord ρ) : Bool :=
  match x.chainOf tr.record with
  | some (leaf :: rest) =>
    anchorOf x trusted (leaf :: rest) tr.received ≠ "" ∧ x.verifySignature tr.record leaf
  | _ => false

def trustedIn (roots : List Der) (records : List (TrustRecord ρ)) : List Der :=
  let c := records.foldl (collect x) { known := roots }
  let fps := trustedCAs (roots.map x.fingerprint) c.rotations
  c.known.filter fun d => x.fingerprint d ∈ fps

def countedIn (roots : List Der) (records : List (TrustRecord ρ)) :
    List (String × TrustRecord ρ) :=
  (records.foldl (collect x) { known := roots }).revokes.filter fun r =>
    counts x (trustedIn x roots records) r.2

/-- BuildTrust, without the list of problems. -/
def buildTrust (roots : List Der) (records : List (TrustRecord ρ)) (skew : Int) : TrustHistory where
  skew := skew
  trusted := trustedIn x roots records
  revocations := (countedIn x roots records).map fun r => ⟨r.1, r.2.received⟩

/-- Certificates whose fingerprint is their name with a mark, each verifying against every CA, and
revocations with their signer and what they name. -/
def sample : Reading (Der × String) where
  fingerprint d := "#" ++ d
  fingerprint_ne := by simp
  parses _ := true
  verifies _ _ _ _ := true
  parsePEM ca := some ca
  body r := some { event := "revoke", fingerprint := r.2 }
  chainOf r := some [r.1]
  verifySignature _ _ := true
  verifyAcceptance _ _ := true

/-! ## What Holds answers -/

variable {x} {h : TrustHistory} {walk walk' chain : List Der} {t : Int}

theorem anchorOf_eq_empty :
    anchorOf x walk chain t = "" ↔ ∀ ca ∈ walk, endsAt x chain t ca = false := by
  rw [anchorOf]
  cases hfind : walk.find? (endsAt x chain t) with
  | none => simpa using find?_eq_none.1 hfind
  | some ca =>
    refine iff_of_false (x.fingerprint_ne ca) fun hnone => ?_
    have hends := find?_some hfind
    rw [hnone ca (mem_of_find?_eq_some hfind)] at hends
    cases hends

variable (x h) in
def Revoked (t : Int) (ca : Der) : Prop :=
  revokedAt [x.fingerprint ca] t h.revocations h.skew = true

theorem revokedAt_append {a b : List String} {revocations : List Revocation} {skew : Int} :
    revokedAt (a ++ b) t revocations skew
      = (revokedAt a t revocations skew || revokedAt b t revocations skew) :=
  any_append

/-- Holds accepts when a CA of the first walk fits, no certificate of the chain was revoked, and the
first that fits in the second walk was not. -/
theorem holds_eq_ok (hsame : walk'.Perm walk) : holds x h walk walk' chain t = .ok () ↔
      revokedAt (chain.map x.fingerprint) t h.revocations h.skew = false ∧
        ∃ ca, walk'.find? (endsAt x chain t) = some ca ∧ ¬ Revoked x h t ca := by
  have hnone : anchorOf x walk chain t = "" ↔ anchorOf x walk' chain t = "" := by
    simp only [anchorOf_eq_empty, hsame.mem_iff]
  simp only [holds, hnone]
  cases hfind : walk'.find? (endsAt x chain t) with
  | none => simp [anchorOf, hfind]
  | some ca =>
    have hanchor : anchorOf x walk' chain t = x.fingerprint ca := by rw [anchorOf, hfind]
    simp only [hanchor, x.fingerprint_ne, if_false, ne_eq, not_false_eq_true, if_true,
      revokedAt_append, Option.some.injEq, exists_eq_left', Revoked]
    cases revokedAt (chain.map x.fingerprint) t h.revocations h.skew <;>
      cases revokedAt [x.fingerprint ca] t h.revocations h.skew <;> simp

theorem holds_eq_noTrustedCA (hsame : walk.Perm h.trusted) :
    holds x h walk walk' chain t = .error .noTrustedCA ↔
      ∀ ca ∈ h.trusted, endsAt x chain t ca = false := by
  simp only [← hsame.mem_iff, ← anchorOf_eq_empty, holds]
  split
  · simp [*]
  rename_i hanchor
  refine iff_of_false ?_ hanchor
  generalize revokedAt _ t h.revocations h.skew = revoked
  cases revoked <;> nofun

/-- A CA that fits is the first one of some walk. -/
theorem exists_walk {ca : Der} (hca : ca ∈ h.trusted) (hends : endsAt x chain t ca = true) :
    ∃ walk : List Der, walk.Perm h.trusted ∧ walk.find? (endsAt x chain t) = some ca :=
  ⟨ca :: h.trusted.erase ca, (perm_cons_erase hca).symm, find?_cons_of_pos hends⟩

/-- The answer of Holds depends on the order of the walks unless a certificate of the chain was
revoked, or of the CAs that the chain ends at all were or none was.  A chain that ends at revoked
CAs only is refused in every order. -/
theorem holds_in_every_order_iff (x : Reading ρ) (h : TrustHistory) (chain : List Der) (t : Int) :
    ((∀ a b c d : List Der, a.Perm h.trusted → b.Perm h.trusted → c.Perm h.trusted →
        d.Perm h.trusted → holds x h a b chain t = holds x h c d chain t) ↔
      revokedAt (chain.map x.fingerprint) t h.revocations h.skew = true ∨
        ∀ ca ∈ h.trusted, ∀ ca' ∈ h.trusted, endsAt x chain t ca = true →
          endsAt x chain t ca' = true → (Revoked x h t ca ↔ Revoked x h t ca')) ∧
    ((∀ ca ∈ h.trusted, endsAt x chain t ca = true → Revoked x h t ca) →
      ∀ a b : List Der, a.Perm h.trusted → b.Perm h.trusted → holds x h a b chain t ≠ .ok ()) := by
  refine ⟨⟨fun hsame => ?_, fun hcond a b c d ha hb hc hd => ?_⟩, fun hall a b ha hb hok => ?_⟩
  · rw [or_iff_not_imp_left, Bool.not_eq_true]
    intro hchain ca hca ca' hca' hends hends'
    obtain ⟨b, hb, hfind⟩ := exists_walk hca hends
    obtain ⟨d, hd, hfind'⟩ := exists_walk hca' hends'
    have hequal := hsame h.trusted b h.trusted d (.refl _) hb (.refl _) hd
    rw [← not_iff_not]
    calc ¬ Revoked x h t ca ↔ holds x h h.trusted b chain t = .ok () := by
          simp [holds_eq_ok hb, hchain, hfind]
      _ ↔ holds x h h.trusted d chain t = .ok () := by rw [hequal]
      _ ↔ ¬ Revoked x h t ca' := by simp [holds_eq_ok hd, hchain, hfind']
  · have hnone : holds x h a b chain t = .error .noTrustedCA ↔
        holds x h c d chain t = .error .noTrustedCA := by
      rw [holds_eq_noTrustedCA ha, holds_eq_noTrustedCA hc]
    have hok : holds x h a b chain t = .ok () ↔ holds x h c d chain t = .ok () := by
      rw [holds_eq_ok (hb.trans ha.symm), holds_eq_ok (hd.trans hc.symm)]
      refine and_congr_right fun hchain => ?_
      have hsame := hcond.resolve_left (by simp [hchain])
      have hgo : ∀ b d : List Der, b.Perm h.trusted → d.Perm h.trusted →
          (∃ ca, b.find? (endsAt x chain t) = some ca ∧ ¬ Revoked x h t ca) →
          ∃ ca, d.find? (endsAt x chain t) = some ca ∧ ¬ Revoked x h t ca := by
        rintro b d hb hd ⟨ca, hca, hnot⟩
        have hmem := hb.mem_iff.1 (mem_of_find?_eq_some hca)
        have hends := find?_some hca
        obtain ⟨ca', hca'⟩ := Option.isSome_iff_exists.1
          (find?_isSome.2 ⟨ca, hd.mem_iff.2 hmem, hends⟩)
        have hmem' := hd.mem_iff.1 (mem_of_find?_eq_some hca')
        rw [hsame ca hmem ca' hmem' hends (find?_some hca')] at hnot
        exact ⟨ca', hca', hnot⟩
      exact ⟨hgo b d hb hd, hgo d b hd hb⟩
    rcases hleft : holds x h a b chain t with (_ | _) | _ <;>
      rcases hright : holds x h c d chain t with (_ | _) | _ <;>
      simp_all
  obtain ⟨-, ca, hfind, hnot⟩ := (holds_eq_ok (hb.trans ha.symm)).1 hok
  exact hnot (hall ca (hb.mem_iff.1 (mem_of_find?_eq_some hfind)) (find?_some hfind))

/-- The leaf verifies against both CAs: in one order its anchor is the revoked one. -/
theorem one_order_refuses :
    let h : TrustHistory := ⟨2, ["old", "new"], [⟨"#old", 100⟩]⟩
    holds sample h ["old", "new"] ["old", "new"] ["leaf"] 200 = .error .revoked ∧
      holds sample h ["old", "new"] ["new", "old"] ["leaf"] 200 = .ok () := by
  decide +kernel

/-! ## Whose revocations count -/

variable (x) in
def revoked? (tr : TrustRecord ρ) : Option String :=
  (x.body tr.record).bind fun b => if b.event = "revoke" then some b.fingerprint else none

theorem collect_revokes (c : Collected ρ) (tr : TrustRecord ρ) :
    (collect x c tr).revokes = c.revokes ++ (revoked? x tr).toList.map (·, tr) := by
  unfold collect revoked?
  cases x.body tr.record with
  | none => simp
  | some b =>
    by_cases hanchor : b.event = "anchor"
    · cases hpem : x.parsePEM b.ca <;> simp [hanchor, hpem]
    by_cases hrotation : b.event = "rotation"
    · cases hpem : x.parsePEM b.ca with
      | none => simp [hrotation, hpem]
      | some next => by_cases hnext : x.fingerprint next = b.next <;> simp [hrotation, hpem, hnext]
    by_cases hrevoke : b.event = "revoke" <;> simp [hanchor, hrotation, hrevoke]

theorem mem_revokes {records : List (TrustRecord ρ)} {c : Collected ρ}
    {r : String × TrustRecord ρ} : r ∈ (records.foldl (collect x) c).revokes ↔
      r ∈ c.revokes ∨ r.2 ∈ records ∧ revoked? x r.2 = some r.1 := by
  induction records generalizing c with
  | nil => simp
  | cons tr records ih =>
    obtain ⟨fp, tr'⟩ := r
    rw [foldl_cons, ih, collect_revokes]
    cases hfp : revoked? x tr with
    | none => grind
    | some fp' => grind

theorem mem_countedIn {roots : List Der} {records : List (TrustRecord ρ)}
    {r : String × TrustRecord ρ} :
    r ∈ countedIn x roots records ↔ r.2 ∈ records ∧ revoked? x r.2 = some r.1 ∧
      counts x (trustedIn x roots records) r.2 = true := by
  rw [countedIn, mem_filter, mem_revokes]
  simp [and_assoc]

variable (x) in
/-- Both are revocations whose signers end at a trusted CA; the second was received before the
first, less the skew, and names a certificate of its chain or a CA that the chain ends at. -/
def SignerRevoked (trusted : List Der) (skew : Int) (tr tr' : TrustRecord ρ) : Prop :=
  (∃ fp, revoked? x tr = some fp) ∧ counts x trusted tr = true ∧ counts x trusted tr' = true ∧
    tr'.received - skew < tr.received ∧ ∃ fp chain, revoked? x tr' = some fp ∧
      x.chainOf tr.record = some chain ∧ (fp ∈ chain.map x.fingerprint ∨
        ∃ ca ∈ trusted, endsAt x chain tr.received ca = true ∧ fp = x.fingerprint ca)

/-- Each revocation that BuildTrust counts was signed by a chain that Holds accepts, in every order,
exactly when the records have no revocation whose signer was revoked before. -/
theorem counted_signers_hold_iff (x : Reading ρ) (roots : List Der) (records : List (TrustRecord ρ))
    (skew : Int) :
    (∀ r ∈ countedIn x roots records, ∀ chain, x.chainOf r.2.record = some chain →
      ∀ a b : List Der, a.Perm (trustedIn x roots records) → b.Perm (trustedIn x roots records) →
        holds x (buildTrust x roots records skew) a b chain r.2.received = .ok ()) ↔
    ∀ tr ∈ records, ∀ tr' ∈ records, ¬ SignerRevoked x (trustedIn x roots records) skew tr tr' := by
  have hrevoked : ∀ (fps : List String) (t : Int), revokedAt fps t
      (buildTrust x roots records skew).revocations skew = false ↔
      ∀ r' ∈ countedIn x roots records, r'.2.received - skew < t → r'.1 ∉ fps := by
    intro fps t
    simp only [revokedAt, buildTrust, any_eq_false, any_map, any_eq_true,
      Function.comp, decide_eq_true_eq]
    grind
  constructor
  · rintro hall tr htr tr' htr' ⟨⟨fp, hfp⟩, hcounts, hcounts', ht, fp', chain, hfp', hchain, hnames⟩
    have hr : (fp, tr) ∈ countedIn x roots records := mem_countedIn.2 ⟨htr, hfp, hcounts⟩
    have hr' : (fp', tr') ∈ countedIn x roots records := mem_countedIn.2 ⟨htr', hfp', hcounts'⟩
    rcases hnames with hmem | ⟨ca, hca, hends, rfl⟩
    · have hok := (holds_eq_ok (.refl _)).1 (hall _ hr chain hchain _ _ (.refl _) (.refl _))
      exact (hrevoked _ _).1 hok.1 _ hr' ht hmem
    obtain ⟨b, hb, hfind⟩ := exists_walk (h := buildTrust x roots records skew) hca hends
    obtain ⟨-, ca', hfind', hnot⟩ := (holds_eq_ok hb).1 (hall _ hr chain hchain _ b (.refl _) hb)
    cases hfind.symm.trans hfind'
    rw [Revoked, Bool.not_eq_true] at hnot
    exact (hrevoked _ _).1 hnot _ hr' ht (mem_singleton_self _)
  rintro hnot ⟨fp, tr⟩ hr chain hchain a b ha hb
  obtain ⟨htr, hfp, hcounts⟩ := mem_countedIn.1 hr
  have hfree : ∀ r' ∈ countedIn x roots records, r'.2.received - skew < tr.received →
      ¬ (r'.1 ∈ chain.map x.fingerprint ∨ ∃ ca ∈ trustedIn x roots records,
        endsAt x chain tr.received ca = true ∧ r'.1 = x.fingerprint ca) := by
    intro r' hr' ht hnames
    obtain ⟨htr', hfp', hcounts'⟩ := mem_countedIn.1 hr'
    exact hnot tr htr r'.2 htr' ⟨⟨fp, hfp⟩, hcounts, hcounts', ht, r'.1, chain, hfp', hchain,
      hnames⟩
  -- the signer of a counted revocation ends at a trusted CA
  have hanchor : anchorOf x b chain tr.received ≠ "" := by
    rw [Ne, anchorOf_eq_empty]
    simp only [hb.mem_iff]
    rw [← anchorOf_eq_empty]
    simp only [counts, hchain] at hcounts
    split at hcounts
    · simp_all
    cases hcounts
  rw [holds_eq_ok (hb.trans ha.symm)]
  refine ⟨(hrevoked _ _).2 fun r' hr' ht hmem => hfree r' hr' ht (.inl hmem), ?_⟩
  cases hfind : b.find? (endsAt x chain tr.received) with
  | none => exact absurd (by rw [anchorOf, hfind]) hanchor
  | some ca =>
    refine ⟨ca, rfl, ?_⟩
    rw [Revoked, Bool.not_eq_true]
    refine (hrevoked _ _).2 fun r' hr' ht hmem => hfree r' hr' ht (.inr ⟨ca, ?_⟩)
    exact ⟨hb.mem_iff.1 (mem_of_find?_eq_some hfind), find?_some hfind, mem_singleton.1 hmem⟩

/-- The first revocation names the second one's signer; both count. -/
theorem revoked_signer_counts :
    let records := [⟨("b", "#a"), 100⟩, ⟨("a", "#c"), 200⟩]
    (countedIn sample ["root"] records).map (·.1) = ["#a", "#c"] ∧
      holds sample (buildTrust sample ["root"] records 2) ["root"] ["root"] ["a"] 200
        = .error .revoked := by
  decide +kernel

/-! ## The loop of TrustedCAs -/

/-- A pass over the rotations, and whether it changed something. -/
def passOver (rotations : List Rotation) (trusted : List String) : List String × Bool :=
  rotations.foldl (fun (trusted, changed) r =>
    if r.next ∈ trusted ∧ r.signed ∧ r.accepted ∧ r.previous ∉ trusted then
      (r.previous :: trusted, true)
    else (trusted, changed)) (trusted, false)

/-- `TrustedCAs` in so many passes; `none` when another one follows. -/
def passes (rotations : List Rotation) : Nat → List String → Option (List String)
  | 0, _ => none
  | turns + 1, trusted =>
    match passOver rotations trusted with
    | (trusted, true) => passes rotations turns trusted
    | (trusted, false) => some trusted

/-- A rotation with both signatures leads from a CA to the next. -/
def Leads (rotations : List Rotation) (ca next : String) : Prop :=
  ∃ r ∈ rotations, r.previous = ca ∧ r.next = next ∧ r.signed ∧ r.accepted

/-- From the CA, a chain of rotations leads to one of these. -/
def LeadsTo (rotations : List Rotation) (roots : List String) (ca : String) : Prop :=
  ∃ root ∈ roots, Relation.ReflTransGen (Leads rotations) ca root

section
variable {rotations l : List Rotation} {trusted t : List String} {ca : String} {n : Nat}

/-- What a pass over some of the rotations leaves. -/
structure Pass (rotations l : List Rotation) (trusted : List String) (p : List String × Bool) :
    Prop where
  kept : ∀ ca ∈ trusted, ca ∈ p.1
  leads : ∀ ca ∈ p.1, LeadsTo rotations trusted ca
  same : p.2 = false → p.1 = trusted
  closed : p.2 = false → ∀ r ∈ l, r.next ∈ p.1 → r.signed → r.accepted → r.previous ∈ p.1
  more : p.2 = true → ∃ r ∈ rotations, r.previous ∉ trusted ∧ r.previous ∈ p.1

theorem pass_passOver (trusted : List String) (hl : ∀ r ∈ l, r ∈ rotations) :
    Pass rotations l trusted (passOver l trusted) := by
  -- the last rotation comes to a pass over those before it
  induction l using reverseRecOn with
  | nil => exact ⟨fun _ h => h, fun ca h => ⟨ca, h, .refl⟩, fun _ => rfl, nofun, nofun⟩
  | append_singleton l r ih =>
    obtain ⟨hl, hr⟩ := forall_mem_append.1 hl
    specialize ih hl
    rw [forall_mem_singleton] at hr
    simp only [passOver, foldl_append, foldl_cons, foldl_nil] at ih ⊢
    split
    next h =>
      obtain ⟨hnext, hsigned, haccepted, hnew⟩ := h
      refine ⟨fun ca hca => mem_cons_of_mem _ (ih.kept ca hca), ?_, nofun, nofun, fun _ =>
        ⟨r, hr, fun hmem => hnew (ih.kept _ hmem), mem_cons_self⟩⟩
      rintro ca (_ | ⟨_, hca⟩)
      · obtain ⟨root, hroot, hleads⟩ := ih.leads _ hnext
        exact ⟨root, hroot, .head ⟨r, hr, rfl, rfl, hsigned, haccepted⟩ hleads⟩
      exact ih.leads ca hca
    next h =>
    refine ⟨ih.kept, ih.leads, ih.same, fun hsame => forall_mem_append.2 ⟨ih.closed hsame, ?_⟩,
      ih.more⟩
    rw [forall_mem_singleton]
    exact fun hnext hsigned haccepted => not_not.1 fun hca => h ⟨hnext, hsigned, haccepted, hca⟩

theorem mem_of_passes (h : passes rotations n trusted = some t) :
    ca ∈ t ↔ LeadsTo rotations trusted ca := by
  induction n generalizing trusted with
  | zero => cases h
  | succ n ih =>
    have hpass := pass_passOver trusted fun r (hr : r ∈ rotations) => hr
    rw [passes] at h
    generalize passOver rotations trusted = p at h hpass
    obtain ⟨next, _ | _⟩ := p
    · cases h
      cases hpass.same rfl
      refine ⟨fun hca => ⟨ca, hca, .refl⟩, ?_⟩
      rintro ⟨root, hroot, hleads⟩
      clear ih
      induction hleads using Relation.ReflTransGen.head_induction_on with
      | refl => exact hroot
      | head hstep _ hin =>
        obtain ⟨r, hr, rfl, rfl, hsigned, haccepted⟩ := hstep
        exact hpass.closed rfl r hr hin hsigned haccepted
    rw [ih h]
    constructor
    · rintro ⟨ca', hca', hleads⟩
      obtain ⟨root, hroot, hleads'⟩ := hpass.leads ca' hca'
      exact ⟨root, hroot, hleads.trans hleads'⟩
    rintro ⟨root, hroot, hleads⟩
    exact ⟨root, hpass.kept root hroot, hleads⟩

/-- A pass that changes something leaves fewer rotations that can. -/
theorem passes_eq (hl : ∀ r ∈ rotations, r.previous ∉ trusted → r ∈ l) (hn : l.length ≤ n)
    (more : Nat) : passes rotations (more + n + 1) trusted =
      some ((fun t => (passOver rotations t).1)^[n] trusted) := by
  induction n using Nat.strongRecOn generalizing l trusted with
  | ind n ih =>
    have hpass := pass_passOver trusted fun r (hr : r ∈ rotations) => hr
    generalize hp : passOver rotations trusted = p at hpass
    obtain ⟨next, _ | _⟩ := p
    · cases hpass.same rfl
      rw [passes, hp, Function.iterate_fixed (congrArg Prod.fst hp)]
    obtain ⟨r, hr, hnew, hadded⟩ := hpass.more rfl
    have hlt : (l.filter (·.previous ∉ next)).length < l.length :=
      length_filter_lt_length_iff_exists.2 ⟨r, hl r hr hnew, by simpa using hadded⟩
    obtain _ | n := n
    · omega
    rw [passes, hp, Function.iterate_succ_apply, hp]
    refine ih n (by omega) (l := l.filter (·.previous ∉ next)) (fun r hr hout => ?_) (by omega)
    exact mem_filter.2 ⟨hl r hr fun hmem => hout (hpass.kept _ hmem), by simpa using hout⟩

end

/-- The loop ends, after at most one pass more than there are rotations, and returns the CAs from
which a chain of rotations with both signatures leads to a configured one. -/
theorem trustedCAs_exact (configured : List String) (rotations : List Rotation) :
    (∀ more, passes rotations (more + rotations.length + 1) configured =
      some (trustedCAs configured rotations)) ∧
    ∀ ca, ca ∈ trustedCAs configured rotations ↔ LeadsTo rotations configured ca := by
  have hpasses (more : Nat) : passes rotations (more + rotations.length + 1) configured =
      some (trustedCAs configured rotations) := by
    rw [passes_eq (fun r hr _ => hr) (Nat.le_refl _), trustedCAs]
    congr 2
    funext trusted
    refine (foldl_hom Prod.fst fun p r => ?_).symm
    dsimp only
    split <;> rfl
  exact ⟨hpasses, fun ca => mem_of_passes (hpasses 0)⟩

end BeSdk.Runprofile
