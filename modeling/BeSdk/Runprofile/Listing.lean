import BeSdk.Runprofile.Trust

/-!
# The records a listing returns

`runprofile/runprofile.go`: List reads the objects under the prefix of a deployment and a kind and
keeps the records that verify.  A record names its deployment and kind itself, and the check reads
no more of them than the record's own deployment, for its writer's identity: a record that was
signed for another kind verifies wherever it is put.

Anyone may put objects; nobody signs with another's key, so a signature that holds is the
certificate's over these very fields.
-/

namespace BeSdk.Runprofile

open List

/-- A record: the fields that the checks read, and the others with the signature, `β`. -/
structure Record (β : Type) where
  deployment : String
  kind : String
  component : String
  rest : β

/-- What `Identity` and the certificates give. -/
structure Credentials (β : Type) extends Reading (Record β) where
  verifySigner : List Der → Bool
  uris : Der → List String
  roots : List Der
  value : Record β → Option Int

inductive Problem
  | unread
  | notARecord
  | noChain
  | signer
  | atReceipt (r : Refusal)
  | leaf
  | writer (component : String)
  | signature
deriving DecidableEq, Repr

inductive Content (β : Type)
  | unreadable
  | other
  | record (r : Record β)

structure Object (β : Type) where
  key : String
  received : Int
  content : Content β

structure Listed (β : Type) where
  received : Int
  record : Option (Record β)
  problem : Option Problem

variable {β : Type} (x : Credentials β)

def spiffe (deployment component : String) : String :=
  "spiffe://" ++ deployment ++ "/component/" ++ component

def writerIsSigner (r : Record β) (leaf : Der) : Bool :=
  spiffe r.deployment r.component ∈ x.uris leaf

/-- What both checks end with. -/
def verifyLeaf (r : Record β) (leaf : Der) : Except Problem Unit :=
  if !x.parses leaf then .error .leaf
  else if !writerIsSigner x r leaf then .error (.writer r.component)
  else if !x.verifySignature r leaf then .error .signature
  else .ok ()

/-- `Verify`, against the current trust root. -/
def verify (r : Record β) : Except Problem Unit :=
  match x.chainOf r with
  | some (leaf :: rest) =>
    if x.verifySigner (leaf :: rest) then verifyLeaf x r leaf else .error .signer
  | _ => .error .noChain

def verifyRecord (r : Record β) (trust : Option TrustHistory) (walks : List Der × List Der)
    (received : Int) : Except Problem Unit :=
  match trust with
  | none => verify x r
  | some h =>
    match x.chainOf r with
    | some (leaf :: rest) =>
      match holds x.toReading h walks.1 walks.2 (leaf :: rest) received with
      | .error e => .error (.atReceipt e)
      | .ok () => verifyLeaf x r leaf
    | _ => .error .noChain

def isOf (deployment kind key : String) : Bool :=
  (deployment ++ "/" ++ kind ++ "/").toList.isPrefixOf key.toList

def listed (trust : Option TrustHistory) (walks : List Der × List Der) (o : Object β) : Listed β :=
  match o.content with
  | .unreadable => ⟨o.received, none, some .unread⟩
  | .other => ⟨o.received, none, some .notARecord⟩
  | .record r =>
    match verifyRecord x r trust walks o.received with
    | .error e => ⟨o.received, some r, some e⟩
    | .ok () => ⟨o.received, some r, none⟩

/-- The skew that Trust declares, in nanoseconds. -/
def defaultSkew : Int := 2000000000

variable (deployment : String) (objects : List (Object β)) (walks : String → List Der × List Der)

/-- The objects of a kind, each with its verification. -/
def listedOf (trust : Option TrustHistory) (kind : String) : List (Listed β) :=
  (objects.filter fun o => isOf deployment kind o.key).map fun o => listed x trust (walks o.key) o

/-- `Trust`: what was read of both kinds, whatever its signature. -/
def trust : TrustHistory :=
  let read (l : Listed β) : Option (TrustRecord (Record β)) := l.record.map (⟨·, l.received⟩)
  buildTrust x.toReading x.roots
    ((listedOf x deployment objects walks none "trust.ca").filterMap read ++
      (listedOf x deployment objects walks none "trust.credential").filterMap read) defaultSkew

/-- The history that ListAll reads a kind against. -/
def trustFor (kind : String) : Option TrustHistory :=
  if kind ≠ "trust.ca" ∧ kind ≠ "trust.credential" then some (trust x deployment objects walks)
  else none

def listAll (kind : String) : List (Listed β) :=
  listedOf x deployment objects walks (trustFor x deployment objects walks kind) kind

def list (kind : String) : List (Record β) :=
  (listAll x deployment objects walks kind).filterMap fun l =>
    match l.problem with
    | some _ => none
    | none => l.record

def currentOf (recs : List (Record β)) : Int :=
  recs.foldl (fun max r => ((x.value r).filter (· > max)).getD max) 0

/-- A certificate with the identity of the record's writer has signed it. -/
def SignedByWriter (r : Record β) : Prop :=
  ∃ leaf rest, x.chainOf r = some (leaf :: rest) ∧ writerIsSigner x r leaf = true ∧
    x.verifySignature r leaf = true

variable {x deployment objects walks} {r : Record β}

theorem verifyLeaf_ok {leaf : Der} (h : verifyLeaf x r leaf = .ok ()) :
    writerIsSigner x r leaf = true ∧ x.verifySignature r leaf = true := by
  unfold verifyLeaf at h
  split at h
  · cases h
  split at h
  · cases h
  split at h
  · cases h
  simp_all

theorem verifyRecord_ok {trust : Option TrustHistory} {walks : List Der × List Der} {received : Int}
    (h : verifyRecord x r trust walks received = .ok ()) : SignedByWriter x r := by
  have hchain : ∃ leaf rest, x.chainOf r = some (leaf :: rest) ∧ verifyLeaf x r leaf = .ok () := by
    cases trust with
    | none =>
      simp only [verifyRecord, verify] at h
      split at h
      next leaf rest hchain =>
        split at h
        · exact ⟨leaf, rest, hchain, h⟩
        cases h
      cases h
    | some history =>
      simp only [verifyRecord] at h
      split at h
      next leaf rest hchain =>
        split at h
        · cases h
        exact ⟨leaf, rest, hchain, h⟩
      cases h
  obtain ⟨leaf, rest, hchain, hleaf⟩ := hchain
  exact ⟨leaf, rest, hchain, verifyLeaf_ok hleaf⟩

theorem mem_list {kind : String} :
    r ∈ list x deployment objects walks kind ↔ ∃ o ∈ objects, isOf deployment kind o.key = true ∧
      o.content = .record r ∧ verifyRecord x r (trustFor x deployment objects walks kind)
        (walks o.key) o.received = .ok () := by
  simp only [list, listAll, listedOf, mem_filterMap, mem_map, mem_filter]
  constructor
  · rintro ⟨_, ⟨o, ⟨ho, hkey⟩, rfl⟩, hr⟩
    refine ⟨o, ho, hkey, ?_⟩
    unfold listed at hr
    grind
  rintro ⟨o, ho, hkey, hcontent, hok⟩
  exact ⟨_, ⟨o, ⟨ho, hkey⟩, rfl⟩, by simp [listed, hcontent, hok]⟩

theorem currentOf_mem (recs : List (Record β)) :
    currentOf x recs = 0 ∨ ∃ r ∈ recs, x.value r = some (currentOf x recs) := by
  unfold currentOf
  generalize (0 : Int) = start
  induction recs generalizing start with
  | nil => exact .inl rfl
  | cons r recs ih =>
    rw [foldl_cons]
    rcases ih (((x.value r).filter (· > start)).getD start) with hsame | ⟨r', hr', hvalue⟩
    · rw [hsame]
      cases hvalue : x.value r with
      | none => exact .inl rfl
      | some v => by_cases hv : v > start <;> simp [Option.filter, hv, hvalue]
    exact .inr ⟨r', mem_cons_of_mem _ hr', hvalue⟩

/-- Every record that List returns was signed by its writer, as a record of the deployment it names;
all are of the listed kind and of the store's deployment exactly when no object of the kind's prefix
is a record of another kind or deployment that verifies.  Current takes one of their values. -/
theorem listed_as_signed_iff (x : Credentials β) (deployment : String) (objects : List (Object β))
    (walks : String → List Der × List Der) (kind : String) :
    ((∀ r ∈ list x deployment objects walks kind,
        SignedByWriter x r ∧ r.kind = kind ∧ r.deployment = deployment) ↔
      ∀ o ∈ objects, isOf deployment kind o.key = true → ∀ r, o.content = .record r →
        r.kind ≠ kind ∨ r.deployment ≠ deployment →
        verifyRecord x r (trustFor x deployment objects walks kind) (walks o.key) o.received
          ≠ .ok ()) ∧
    (∀ r ∈ list x deployment objects walks kind, SignedByWriter x r) ∧
    (currentOf x (list x deployment objects walks kind) = 0 ∨
      ∃ r ∈ list x deployment objects walks kind,
        x.value r = some (currentOf x (list x deployment objects walks kind))) := by
  have hsigned : ∀ r ∈ list x deployment objects walks kind, SignedByWriter x r := by
    intro r hr
    obtain ⟨o, -, -, -, hok⟩ := mem_list.1 hr
    exact verifyRecord_ok hok
  refine ⟨⟨fun hall o ho hkey r hcontent hother hok => ?_, fun hnone r hr => ?_⟩, hsigned,
    currentOf_mem _⟩
  · obtain ⟨-, hkind, hdeployment⟩ := hall r (mem_list.2 ⟨o, ho, hkey, hcontent, hok⟩)
    exact hother.elim (absurd hkind) (absurd hdeployment)
  obtain ⟨o, ho, hkey, hcontent, hok⟩ := mem_list.1 hr
  have hown := mt (hnone o ho hkey r hcontent) (not_not.2 hok)
  rw [not_or, not_not, not_not] at hown
  exact ⟨hsigned r hr, hown⟩

/-- An authorization generation's record, copied under the deployment generations' prefix, is the
deployment's current generation. -/
theorem copied_record_counts :
    let x : Credentials Int :=
      { sample with
        body := fun _ => none
        chainOf := fun _ => some ["leaf"]
        verifySignature := fun _ _ => true
        verifyAcceptance := fun _ _ => true
        verifySigner := fun _ => true
        uris := fun _ => [spiffe "shop" "authz"]
        roots := ["root"]
        value := fun r => some r.rest }
    let copied := ⟨"shop/generation.deployment/7", 100,
      .record ⟨"shop", "generation.authz", "authz", 9⟩⟩
    (list x "shop" [copied] (fun _ => (["root"], ["root"])) "generation.deployment").map (·.kind)
        = ["generation.authz"] ∧
      currentOf x (list x "shop" [copied] (fun _ => (["root"], ["root"])) "generation.deployment")
        = 9 := by
  decide +kernel

end BeSdk.Runprofile
