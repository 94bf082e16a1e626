import BeSdk.Events.Subscription
import Mathlib.Data.List.Infix
import Mathlib.Data.Set.Basic

/-!
# Who gets an event

A subscription names streams and event types; a transport compares dotted texts. This file says when
the two agree: for which names the subjects and durables of `Subscription` can be read in one way
only.

## Strategy

Everything is a statement about lists of tokens.

* A subject is `be`, the stream's tokens, the partition's one token and the type's tokens
  (`tokens_subject`): joining with dots joins the token lists, and no number has a dot.
* A valid stream's tokens have no wildcard among them, so a pattern that starts with them matches
  only what starts with them (`tokensMatch_append`). The pattern of a whole stream therefore
  matches the stream's proper extensions (`streamPattern_matches`), and a filter with a type what
  follows the stream and one more token (`typeFilter_matches`).

Nothing is ever lost that way. What can go wrong is that too much is handed over: the subject of a
stream whose name extends another's starts with the other's tokens too, and a type that has `*` or
`>` for a token is a pattern. `handsOver_iff` says that nothing else can.

For durables the four characters `/`, `.`, `-` and `_` are one separator, so a durable is its list
of words (`durableName_eq_iff`).
-/

namespace BeSdk.Events

open List

/-! ## Tokens of subjects and patterns -/

@[simp]
theorem tokens_dot (a b : String) : tokens (a ++ "." ++ b) = tokens a ++ tokens b := by
  simp [tokens, splitOn_append_cons_self]

theorem dot_notMem_number (n : Nat) : '.' ∉ (toString n).toList := by
  intro h
  have hdigit : '.'.isDigit :=
    Nat.isDigit_of_mem_toDigits (b := 10) (n := n) (by decide) (by decide) (by simpa using h)
  simp at hdigit

@[simp]
theorem tokens_number (n : Nat) : tokens (toString n) = [(toString n).toList] :=
  splitOn_eq_singleton (dot_notMem_number n)

theorem tokens_subject (stream : String) (partition : Nat) (typ : String) :
    tokens (subject stream partition typ) =
      ['b', 'e'] :: (tokens stream ++ (toString partition).toList :: tokens typ) := by
  have h : subject stream partition typ =
      "be" ++ "." ++ stream ++ "." ++ toString partition ++ "." ++ typ := by
    simp [subject, String.append_assoc]
  have hbe : tokens "be" = [['b', 'e']] := by decide
  rw [h, tokens_dot, tokens_dot, tokens_dot, tokens_number, hbe]
  simp

theorem tokens_streamPattern (stream : String) :
    tokens (streamPattern stream) = ['b', 'e'] :: (tokens stream ++ [['>']]) := by
  have h : streamPattern stream = "be" ++ "." ++ stream ++ "." ++ ">" := by
    simp [streamPattern, String.append_assoc]
  have hbe : tokens "be" = [['b', 'e']] := by decide
  have hrest : tokens ">" = [['>']] := by decide
  rw [h, tokens_dot, tokens_dot, hbe, hrest]
  simp

theorem tokens_typeFilter (stream typ : String) : tokens ("be." ++ stream ++ ".*." ++ typ) =
      ['b', 'e'] :: (tokens stream ++ ['*'] :: tokens typ) := by
  have h : "be." ++ stream ++ ".*." ++ typ = "be" ++ "." ++ stream ++ "." ++ "*" ++ "." ++ typ := by
    simp [String.append_assoc]
  have hbe : tokens "be" = [['b', 'e']] := by decide
  have hany : tokens "*" = [['*']] := by decide
  rw [h, tokens_dot, tokens_dot, tokens_dot, hbe, hany]
  simp

/-! ## Matching -/

def Plain (ts : List (List Char)) : Prop := ∀ t ∈ ts, t ≠ ['*'] ∧ t ≠ ['>']

/-- Tokens that are no wildcards match themselves only. -/
theorem tokensMatch_append {ts : List (List Char)} (hts : Plain ts) (p s : List (List Char)) :
    tokensMatch (ts ++ p) s = true ↔ ∃ rest, s = ts ++ rest ∧ tokensMatch p rest = true := by
  induction ts generalizing s with
  | nil => simp
  | cons t ts ih =>
    have ht := hts t mem_cons_self
    have ih := ih fun t' ht' => hts t' (mem_cons_of_mem t ht')
    cases s with
    | nil => simp [tokensMatch, ht.2]
    | cons t' s =>
      by_cases hsame : t' = t
      · subst hsame
        simp [tokensMatch, ht.2, ih]
      have hsame' : t ≠ t' := fun h => hsame h.symm
      simp [tokensMatch, ht.1, ht.2, hsame, hsame']

theorem tokensMatch_self (ts : List (List Char)) : tokensMatch ts ts = true := by
  induction ts with
  | nil => rfl
  | cons t ts ih =>
    by_cases ht : t = ['>']
    · simp [tokensMatch, ht]
    simp [tokensMatch, ht, ih]

theorem subjectMatches_self (typ : String) : subjectMatches typ typ = true :=
  tokensMatch_self (tokens typ)

theorem Stream.plain {s : Stream} (hs : s.validate = .ok ()) : Plain (tokens s.name) := by
  have hname : streamName s.name = true := by
    by_contra hbad
    rw [Bool.not_eq_true] at hbad
    simp [Stream.validate, hbad] at hs
  intro t ht
  have hchars : t.all isNameChar = true := by
    have := all_eq_true.1 hname t ht
    simp only [decide_eq_true_eq] at this
    exact this.2
  constructor
  · rintro rfl
    exact absurd hchars (by decide)
  rintro rfl
  exact absurd hchars (by decide)

theorem plain_be {ts : List (List Char)} (hts : Plain ts) : Plain (['b', 'e'] :: ts) := by
  intro t ht
  rcases mem_cons.1 ht with rfl | ht
  · decide
  exact hts t ht

/-- The pattern of a stream gets every subject that goes on after the stream's tokens. -/
theorem streamPattern_matches {stream : String} (hplain : Plain (tokens stream)) (stream' : String)
    (partition : Nat) (typ : String) :
    subjectMatches (streamPattern stream) (subject stream' partition typ) = true ↔
      ∃ rest, rest ≠ [] ∧
        tokens stream' ++ (toString partition).toList :: tokens typ = tokens stream ++ rest := by
  rw [subjectMatches, tokens_streamPattern, tokens_subject, ← cons_append,
    tokensMatch_append (plain_be hplain)]
  simp [tokensMatch, and_comm]

/-- The filter of a stream and a type gets what the stream, any one token and the type match. -/
theorem typeFilter_matches {stream : String} (hplain : Plain (tokens stream)) (asked : String)
    (stream' : String) (partition : Nat) (typ : String) :
    subjectMatches ("be." ++ stream ++ ".*." ++ asked) (subject stream' partition typ) = true ↔
      ∃ token rest, tokens stream' ++ (toString partition).toList :: tokens typ =
        tokens stream ++ token :: rest ∧ tokensMatch (tokens asked) rest = true := by
  rw [subjectMatches, tokens_typeFilter, tokens_subject, ← cons_append,
    tokensMatch_append (plain_be hplain)]
  constructor
  · rintro ⟨rest, hrest, hmatch⟩
    cases rest with
    | nil => simp [tokensMatch] at hmatch
    | cons token rest =>
      refine ⟨token, rest, by simpa using hrest, ?_⟩
      simpa [tokensMatch] using hmatch
  rintro ⟨token, rest, hrest, hmatch⟩
  refine ⟨token :: rest, by simpa using hrest, ?_⟩
  simpa [tokensMatch] using hmatch

/-! ## Streams and types that cannot be mistaken for one another -/

/-- No stream's name is another's with more tokens after it. -/
def PrefixFree (streams : List Stream) : Prop :=
  ∀ s ∈ streams, ∀ s' ∈ streams, tokens s.name <+: tokens s'.name → s.name = s'.name

/-- No type, read as a pattern, matches another one. -/
def NoPattern (types : Set String) : Prop :=
  ∀ asked ∈ types, ∀ typ ∈ types, subjectMatches asked typ = true → typ = asked

/-- What a subscription asks for, in the words of its declaration. -/
def Sub.asksFor (sub : Sub) (stream typ : String) : Prop :=
  stream ∈ sub.streams ∧ (sub.types = [] ∨ typ ∈ sub.types)

/-- Both transports hand a consumer exactly the events its subscription asks for, whatever it asks
for of these streams and types. -/
def HandsOver (streams : List Stream) (types : Set String) : Prop :=
  ∀ c : Consumer, (∀ st ∈ c.sub.streams, ∃ s ∈ streams, s.name = st) →
    (∀ typ ∈ c.sub.types, typ ∈ types) →
    ∀ s ∈ streams, ∀ partition : Nat, (partition : Int) < s.partitions → ∀ typ ∈ types,
      (Memory.matches c.spec (subject s.name partition typ) = true ↔ c.sub.asksFor s.name typ) ∧
        (Pgqueue.matches c.spec (subject s.name partition typ) = true ↔ c.sub.asksFor s.name typ)

section Streams
variable {streams : List Stream} {types : Set String} {s : Stream}

/-- Two streams of a prefix-free list that both start one list of tokens are one stream. -/
theorem PrefixFree.name_eq (h : PrefixFree streams) {s' : Stream} (hs : s ∈ streams)
    (hs' : s' ∈ streams) {rest rest' : List (List Char)}
    (heq : tokens s.name ++ rest = tokens s'.name ++ rest') : s.name = s'.name := by
  have hpre : tokens s.name <+: tokens s'.name ++ rest' := ⟨rest, heq⟩
  have hpre' : tokens s'.name <+: tokens s'.name ++ rest' := prefix_append _ _
  rcases prefix_or_prefix_of_prefix hpre hpre' with hle | hle
  · exact h s hs s' hs' hle
  exact (h s' hs' s hs hle).symm

variable {typ : String}

/-- What the subscription asks for matches, whatever the other names are. -/
theorem Consumer.spec_matches_of_asksFor (c : Consumer) {stream : String} (partition : Nat)
    (hplain : Plain (tokens stream)) (hasks : c.sub.asksFor stream typ) :
    c.spec.matches (subject stream partition typ) = true := by
  obtain ⟨hstream, htypes⟩ := hasks
  have hin : subjectMatches (streamPattern stream) (subject stream partition typ) = true :=
    (streamPattern_matches hplain _ _ _).2 ⟨_, cons_ne_nil _ _, rfl⟩
  simp only [SubscriptionSpec.matches, Consumer.spec, SubscriptionSpec.withDefaults,
    decide_eq_true_eq, any_eq_true]
  refine ⟨⟨stream, hstream, hin⟩, ?_⟩
  rcases htypes with hnone | htyp
  · exact .inl (by simp [hnone])
  refine .inr ⟨_, mem_flatMap.2 ⟨stream, hstream, mem_map.2 ⟨typ, htyp, rfl⟩⟩, ?_⟩
  exact (typeFilter_matches hplain _ _ _ _).2 ⟨_, _, rfl, subjectMatches_self typ⟩

/-- Where the names cannot be mistaken, what matches was asked for. -/
theorem Consumer.asksFor_of_spec_matches (hvalid : ∀ s ∈ streams, s.validate = .ok ())
    (hfree : PrefixFree streams) (hno : NoPattern types) (c : Consumer)
    (hstreams : ∀ st ∈ c.sub.streams, ∃ s ∈ streams, s.name = st)
    (htypes : ∀ typ ∈ c.sub.types, typ ∈ types) (hs : s ∈ streams) {partition : Nat}
    (htyp : typ ∈ types) (hmatch : c.spec.matches (subject s.name partition typ) = true) :
    c.sub.asksFor s.name typ := by
  simp only [SubscriptionSpec.matches, Consumer.spec, SubscriptionSpec.withDefaults,
    decide_eq_true_eq, any_eq_true] at hmatch
  obtain ⟨⟨st, hst, hin⟩, hfilters⟩ := hmatch
  obtain ⟨s₁, hs₁, rfl⟩ := hstreams st hst
  obtain ⟨rest, -, heq⟩ := (streamPattern_matches (Stream.plain (hvalid s₁ hs₁)) _ _ _).1 hin
  have hname : s.name = s₁.name := hfree.name_eq hs hs₁ heq
  refine ⟨hname ▸ hst, ?_⟩
  rcases hfilters with hnone | ⟨f, hf, hfmatch⟩
  · -- without a filter there is no type, as there is a stream
    left
    by_contra hsome
    obtain ⟨asked, hasked⟩ := exists_mem_of_ne_nil _ hsome
    have hmem : "be." ++ s₁.name ++ ".*." ++ asked ∈ ([] : List String) := by
      rw [← hnone]
      exact mem_flatMap.2 ⟨s₁.name, hst, mem_map.2 ⟨asked, hasked, rfl⟩⟩
    simp at hmem
  right
  obtain ⟨st₂, hst₂, hf⟩ := mem_flatMap.1 hf
  obtain ⟨asked, hasked, rfl⟩ := mem_map.1 hf
  obtain ⟨s₂, hs₂, rfl⟩ := hstreams st₂ hst₂
  obtain ⟨token, rest₂, heq₂, hrest⟩ :=
    (typeFilter_matches (Stream.plain (hvalid s₂ hs₂)) _ _ _ _).1 hfmatch
  -- the filter's stream is the event's, so its `*` stands for the partition
  have hname₂ : s.name = s₂.name := hfree.name_eq hs hs₂ heq₂
  rw [hname₂, append_cancel_left_eq, List.cons.injEq] at heq₂
  rw [← heq₂.2] at hrest
  rwa [hno asked (htypes asked hasked) typ htyp hrest]

/-- A consumer of one stream, to show what it would be handed. -/
def Consumer.ofStream (stream : String) (types : List String) : Consumer :=
  { member := "c", sub := { name := "s", streams := [stream], types := types } }

theorem Stream.zero_lt_partitions (hs : s.validate = .ok ()) :
    ((0 : Nat) : Int) < s.partitions := by
  by_contra hle
  have hlow : s.partitions < 1 ∨ 256 < s.partitions := by omega
  by_cases hname : streamName s.name = false <;> simp [Stream.validate, hname, hlow] at hs

section
variable (hvalid : ∀ s ∈ streams, s.validate = .ok ())
include hvalid

theorem HandsOver.prefixFree
    (h : HandsOver streams types) (htyp : typ ∈ types) : PrefixFree streams := by
  intro s hs s' hs' hpre
  obtain ⟨more, hmore⟩ := hpre
  have hin : subjectMatches (streamPattern s.name) (subject s'.name 0 typ) = true := by
    refine (streamPattern_matches (Stream.plain (hvalid s hs)) _ _ _).2
      ⟨more ++ (toString 0).toList :: tokens typ, by simp, ?_⟩
    rw [← hmore, append_assoc]
  have hasks : (Consumer.ofStream s.name []).sub.asksFor s'.name typ := by
    refine (h (Consumer.ofStream s.name []) ?_ ?_ s' hs' 0
      (Stream.zero_lt_partitions (hvalid s' hs')) typ
      htyp).1.1 ?_
    · intro st hst
      exact ⟨s, hs, (mem_singleton.1 hst).symm⟩
    · intro typ htyp
      exact absurd htyp not_mem_nil
    simp [Memory.matches, SubscriptionSpec.matches, Consumer.spec, Consumer.ofStream,
      SubscriptionSpec.withDefaults, hin]
  exact (mem_singleton.1 hasks.1).symm

theorem HandsOver.noPattern (h : HandsOver streams types) (hs : s ∈ streams) : NoPattern types := by
  intro asked hasked typ htyp hmatch
  have hplain : Plain (tokens s.name) := (Stream.plain (hvalid s hs))
  have hin : subjectMatches (streamPattern s.name) (subject s.name 0 typ) = true :=
    (streamPattern_matches hplain _ _ _).2 ⟨_, cons_ne_nil _ _, rfl⟩
  have hfilter : subjectMatches ("be." ++ s.name ++ ".*." ++ asked) (subject s.name 0 typ) = true :=
    (typeFilter_matches hplain _ _ _ _).2 ⟨_, _, rfl, hmatch⟩
  have hasks : (Consumer.ofStream s.name [asked]).sub.asksFor s.name typ := by
    refine (h (Consumer.ofStream s.name [asked]) ?_ ?_ s hs 0
      (Stream.zero_lt_partitions (hvalid s hs)) typ
      htyp).1.1 ?_
    · intro st hst
      exact ⟨s, hs, (mem_singleton.1 hst).symm⟩
    · intro typ' htyp'
      rwa [mem_singleton.1 htyp']
    simp [Memory.matches, SubscriptionSpec.matches, Consumer.spec, Consumer.ofStream,
      SubscriptionSpec.withDefaults, hin, hfilter]
  rcases hasks.2 with hnone | hmem
  · exact absurd hnone (cons_ne_nil _ _)
  exact mem_singleton.1 hmem

theorem handsOver_iff : HandsOver streams types ↔
      (types.Nonempty → PrefixFree streams) ∧ (streams ≠ [] → NoPattern types) := by
  constructor
  · intro h
    constructor
    · rintro ⟨typ, htyp⟩
      exact h.prefixFree hvalid htyp
    intro hne
    obtain ⟨s, hs⟩ := exists_mem_of_ne_nil _ hne
    exact h.noPattern hvalid hs
  rintro ⟨hfree, hno⟩ c hstreams htypes s hs partition _ typ htyp
  have hiff : c.spec.matches (subject s.name partition typ) = true ↔ c.sub.asksFor s.name typ :=
    ⟨c.asksFor_of_spec_matches hvalid (hfree ⟨typ, htyp⟩) (hno (ne_nil_of_mem hs)) hstreams
      htypes hs htyp, c.spec_matches_of_asksFor partition (Stream.plain (hvalid s hs))⟩
  exact ⟨hiff, hiff⟩

end
end Streams

/-! ## Durables -/

/-- The characters that a durable does not tell apart. -/
def isSeparator (c : Char) : Bool := c = '/' ∨ c = '.' ∨ c = '-' ∨ c = '_'

/-- The words of a component's ID and of a subscription's name, one after the other. -/
def durableWords (componentID subscription : String) : List (List Char) :=
  componentID.toList.splitOnP isSeparator ++ subscription.toList.splitOnP isSeparator

theorem underscored_eq_underscore (c : Char) : underscored c = '_' ↔ isSeparator c = true := by
  unfold underscored isSeparator
  split <;> grind

theorem underscored_of_not_isSeparator {c : Char} (h : isSeparator c = false) :
    underscored c = c := by
  unfold isSeparator at h
  unfold underscored
  split <;> grind

/-- The words can be read off the underscored text. -/
theorem splitOnP_isSeparator (cs : List Char) :
    cs.splitOnP isSeparator = (cs.map underscored).splitOn '_' := by
  induction cs with
  | nil => rfl
  | cons c cs ih =>
    rw [map_cons, splitOn_cons_eq_if_modifyHead, splitOnP_cons_eq_if_modifyHead, ih]
    by_cases hsep : isSeparator c = true
    · simp [hsep, (underscored_eq_underscore c).2 hsep]
    have hne : underscored c ≠ '_' := fun h => hsep ((underscored_eq_underscore c).1 h)
    rw [if_neg hsep, if_neg (by simpa using hne),
      underscored_of_not_isSeparator (by simpa using hsep)]

theorem durableWords_eq (componentID subscription : String) :
    durableWords componentID subscription =
      (durableName componentID subscription).toList.splitOn '_' := by
  rw [durableName, String.toList_ofList, ← splitOnP_isSeparator]
  simp only [String.toList_append, append_assoc]
  exact (splitOnP_append_cons componentID.toList subscription.toList (by decide)).symm

theorem durableName_eq_iff (componentID subscription componentID' subscription' : String) :
    durableName componentID subscription = durableName componentID' subscription' ↔
      durableWords componentID subscription = durableWords componentID' subscription' := by
  rw [durableWords_eq, durableWords_eq]
  constructor
  · intro h
    rw [h]
  intro h
  have hlist := congrArg (['_'].intercalate ·) h
  simpa [String.toList_inj] using hlist

/-- Every two of these subscriptions, each a component's ID and a name, have durables of their
own. -/
def OwnDurables (subscriptions : Set (String × String)) : Prop :=
  subscriptions.Pairwise fun a b => durableName a.1 a.2 ≠ durableName b.1 b.2

/-- Every two of these subscriptions differ in some word. -/
def OwnWords (subscriptions : Set (String × String)) : Prop :=
  subscriptions.Pairwise fun a b => durableWords a.1 a.2 ≠ durableWords b.1 b.2

theorem ownDurables_iff (subscriptions : Set (String × String)) :
    OwnDurables subscriptions ↔ OwnWords subscriptions := by
  simp only [OwnDurables, OwnWords, ne_eq, durableName_eq_iff]

/-! ## The names of an assembly -/

/-- Every subscription is handed exactly what it asks for, under a durable of its own, if and only
if no stream extends another, no type is a pattern for another, and subscriptions differ in their
words. -/
theorem delivery_by_names_iff (streams : List Stream) (types : Set String)
    (subscriptions : Set (String × String)) (hvalid : ∀ s ∈ streams, s.validate = .ok ()) :
    HandsOver streams types ∧ OwnDurables subscriptions ↔
      ((types.Nonempty → PrefixFree streams) ∧ (streams ≠ [] → NoPattern types)) ∧
        OwnWords subscriptions := by
  rw [handsOver_iff hvalid, ownDurables_iff]

/-- Sales and stock, two streams beside one another, with a type each and two subscriptions. -/
theorem delivery_by_names_sales_and_stock :
    let streams := [({ name := "erp.sales", partitions := 4 } : Stream),
      { name := "erp.stock", partitions := 1 }]
    let types : Set String := {"erp.sales.ordered.v1", "erp.stock.moved.v1"}
    let subscriptions : Set (String × String) := {("erp/sales", "levels"), ("erp/stock", "orders")}
    (∀ s ∈ streams, s.validate = .ok ()) ∧ HandsOver streams types ∧ OwnDurables subscriptions := by
  refine ⟨by decide +kernel, (delivery_by_names_iff _ _ _ (by decide +kernel)).2 ⟨⟨?_, ?_⟩, ?_⟩⟩
  · intro _
    unfold PrefixFree
    decide +kernel
  · rintro - asked (rfl | rfl) typ (rfl | rfl) h
    · rfl
    · exact absurd h (by decide +kernel)
    · exact absurd h (by decide +kernel)
    rfl
  rintro a (rfl | rfl) b (rfl | rfl) hne
  · exact absurd rfl hne
  · decide +kernel
  · decide +kernel
  exact absurd rfl hne

/-- A consumer of `erp` is handed an event of `erp.inventory`, by both transports, and a component
`erp/stock` shares the durable of a subscription of `erp`. -/
theorem erp_is_handed_inventory :
    let streams := [({ name := "erp", partitions := 1 } : Stream),
      { name := "erp.inventory", partitions := 1 }]
    let c := Consumer.ofStream "erp" []
    let e := subject "erp.inventory" 0 "erp.inventory.stock_moved.v1"
    (∀ s ∈ streams, s.validate = .ok ()) ∧ Memory.matches c.spec e = true ∧
      Pgqueue.matches c.spec e = true ∧
      ¬c.sub.asksFor "erp.inventory" "erp.inventory.stock_moved.v1" ∧
      durableName "erp/stock" "levels" = durableName "erp" "stock.levels" := by
  refine ⟨by decide +kernel, by decide +kernel, by decide +kernel, ?_, by decide +kernel⟩
  rintro ⟨hmem, -⟩
  exact absurd hmem (by decide)

end BeSdk.Events
