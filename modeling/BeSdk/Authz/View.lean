import BeSdk.Authz.Segment
import BeSdk.Library.Runs
import BeSdk.Projection.Decide

/-!
# The authorization view a member holds

A member holds shards of the authorization view and has them verified (`authz/view.go`). `Holder`
is what it keeps, `Holder.apply` the acceptance table for one answer, in its order: a rollback of
the whole answer, a higher recovery generation, then shard by shard. `Holder.tick` drops every
shard when it detects a stall. `Holder.lookup` and `Holder.lookupStale` give a request its
segments.

The map of shards is iterated in any order, so a lookup is given the order it goes through the
shards in; the clocks' readings are labels as well. Durations are nanoseconds.

`System.log` is history: the views lookups used, each with the generation accepted at that time, and
the shards that were stopped.
-/

namespace BeSdk.Authz

open Projection Function

/-! ## Revisions -/

structure Revision where
  domain : String
  value : String
  epoch : String := ""
  «instance» : String := ""
deriving DecidableEq, Repr

/-- `strconv.ParseInt(s, 10, 64)`, `none` being its error. -/
def parseInt64 (s : String) : Option Int :=
  let number (negative : Bool) (digits : List Char) : Option Int :=
    match parseUint digits with
    | .error _ => none
    | .ok n =>
      if negative then if n ≤ 2 ^ 63 then some (-(n : Int)) else none
      else if n < 2 ^ 63 then some n else none
  match s.toList with
  | '-' :: digits => number true digits
  | '+' :: digits => number false digits
  | digits => number false digits

/-- epochBefore orders epochs `<deployment recovery generation>.<timeline>` by the two integers. -/
def epochBefore (a b : String) : Bool :=
  if (epochKey a).1 ≠ (epochKey b).1 then (epochKey a).1 < (epochKey b).1
  else (epochKey a).2 < (epochKey b).2

/-- One new revision against the held one. -/
def Revision.goesBack (o n : Revision) : Bool :=
  o.domain = n.domain ∧ (epochBefore n.epoch o.epoch ∨
    n.epoch = o.epoch ∧ (parseInt64 n.value).any fun nv => (parseInt64 o.value).any (nv < ·))

/-- revisionsGoBack: one of the new revisions goes back behind a held one. -/
def revisionsGoBack (held next : List Revision) : Bool :=
  next.any fun n => held.any fun o => o.goesBack n

/-! ## Shards and answers -/

/-- One principal's effective segments in a shard. -/
structure SubjectEntry where
  segments : List Segment := []
  accountsDisabled : Bool := false
  securityVersion : Int := 0

structure Shard where
  securityRevisions : List Revision
  applicability : List String
  subjects : AList fun _ : String => SubjectEntry

/-- The declarations a view's segments are checked against. -/
structure Definitions where
  resources : AList fun _ : String => Resource

/-- The segments of a view that do not fit this component's declarations take part in nothing. -/
def fitting (v : Shard) (defs : Option Definitions) : Shard :=
  match defs with
  | none => v
  | some defs =>
    { v with subjects := ⟨v.subjects.entries.map fun entry =>
        ⟨entry.1, { entry.2 with segments := entry.2.segments.filter fun s =>
          match defs.resources.lookup s.resourceType with
          | none => true
          | some r => (s.check r).toBool }⟩,
        by simpa [List.NodupKeys, List.keys, comp_def] using v.subjects.nodupKeys⟩ }

/-- A shard's status in an answer; the last is any other text. -/
inductive ShardStatus where
  | unchanged
  | changed
  | closed
  | other (text : String)
deriving DecidableEq, Repr

structure ShardAnswer where
  shard : String
  status : ShardStatus
  view : Option Shard := none
  readOnly : Bool := false

structure VerifyAnswer where
  nonce : String
  «instance» : String
  shards : List ShardAnswer
  recoveryGeneration : Revision

/-! ## The holder -/

structure Held where
  shard : Shard
  -- The reading when the request that renewed it was sent.
  sentAt : Int
  -- `sentAt` of the last renewal that was not read-only, once there was one.
  highAt : Int := 0
  hasHigh : Bool := false
  -- Its revisions went back under the same recovery generation.
  stopped : Bool := false
  -- A whole answer was a rollback.
  suspended : Bool := false
  -- The member's last answer for it was read-only or closed.
  sourceStale : Bool := false

/-- What a member keeps of its shards and their validity. -/
structure Holder where
  defs : Option Definitions
  shards : AList fun _ : String => Held
  recovery : Int := 0
  hasRecovery : Bool := false
  «instance» : String := ""
  lastTick : Int := 0
  lastSkew : Int := 0

def wRead : Int := 30000000000

def wHigh : Int := 5000000000

def tStall : Int := 2000000000

def interval : Int := 2500000000

/-- `w * (1 - Drift)` with `Drift = 0.001`; exact for both windows. -/
def validity (w : Int) : Int := w * 999 / 1000

structure Grant where
  segments : List Segment
  cutoff : Int
  securityVersion : Int
  stale : Bool := false
  -- The last full renewal by the wall clock, of a stale grant.
  since : Int := 0

namespace Holder

variable (h : Holder)

def put (name : String) (s : Held) : Holder := { h with shards := h.shards.insert name s }

/-- One shard of an accepted answer, and whether it is stopped by it. -/
def applyShard (newer : Bool) (sent : Int) (a : ShardAnswer) : Holder × Bool :=
  let view := a.view.map (fitting · h.defs)
  match a.status, h.shards.lookup a.shard, view with
  | .unchanged, some s, _ =>
    if s.stopped then (h, false)
    else
      (h.put a.shard
        { s with
          sentAt := sent
          suspended := false
          sourceStale := a.readOnly
          highAt := if a.readOnly then s.highAt else sent
          hasHigh := if a.readOnly then s.hasHigh else true }, false)
  | .changed, some s, some v =>
    if s.stopped then (h, false)
    else if newer = false ∧ revisionsGoBack s.shard.securityRevisions v.securityRevisions then
      (h.put a.shard { s with stopped := true }, true)
    else if a.readOnly then
      -- the high-risk validity carries over from the shard it replaces
      (h.put a.shard
        { shard := v, sentAt := sent, highAt := s.highAt, hasHigh := s.hasHigh,
          sourceStale := true }, false)
    else
      (h.put a.shard { shard := v, sentAt := sent, highAt := sent, hasHigh := true }, false)
  | .changed, none, some v =>
    if a.readOnly then (h.put a.shard { shard := v, sentAt := sent, sourceStale := true }, false)
    else (h.put a.shard { shard := v, sentAt := sent, highAt := sent, hasHigh := true }, false)
  | .closed, some s, _ => (h.put a.shard { s with sourceStale := true }, false)
  | _, _, _ => (h, false)

/-- The shards of an accepted answer, one after the other, and those that are stopped. -/
def applyShards (newer : Bool) (sent : Int) : Holder → List ShardAnswer → Holder × List String
  | h, [] => (h, [])
  | h, a :: shards =>
    let (h₁, stops) := h.applyShard newer sent a
    let (h₂, names) := applyShards newer sent h₁ shards
    (h₂, if stops then a.shard :: names else names)

/-- The answer comes from another member instance, or holds a view of one. -/
def foreign (ans : VerifyAnswer) : Bool :=
  h.instance ≠ "" ∧ ans.instance ≠ h.instance ∨
    ans.shards.any fun a => a.view.any fun v =>
      v.securityRevisions.any fun r => r.instance ≠ ans.instance

def suspend : Holder :=
  { h with shards := ⟨h.shards.entries.map fun entry =>
      ⟨entry.1, { entry.2 with suspended := true }⟩,
      by simpa [List.NodupKeys, List.keys, comp_def] using h.shards.nodupKeys⟩ }

def newer (gen : Int) : Bool := h.hasRecovery = false ∨ h.recovery < gen

/-- apply is the acceptance table; the second part of the result are the stopped shards. -/
def apply (ans : VerifyAnswer) (gen sent : Int) : Holder × List String :=
  if h.hasRecovery = true ∧ gen < h.recovery ∨ h.foreign ans = true then (h.suspend, [])
  else
    -- every older shard is void under a higher generation, the stopped ones too
    let shards := if h.newer gen then ∅ else h.shards
    applyShards (h.newer gen) sent
      { h with shards := shards, recovery := gen, hasRecovery := true, «instance» := ans.instance }
      ans.shards

/-- Verify's part after the answer arrived; `nonce` is the one that was sent. -/
def verify (nonce : String) (ans : VerifyAnswer) (sent : Int) : Holder × List String :=
  if ans.nonce ≠ nonce then (h, [])
  else
    match parseInt64 ans.recoveryGeneration.value with
    | none => (h, [])
    | some gen => h.apply ans gen sent

/-- rest marks the start of the wait between verifications. -/
def rest (now wall : Int) : Holder := { h with lastTick := now, lastSkew := wall - now }

/-- A scheduling gap or a jump between the two clocks since the last reading. -/
def stalled (now wall : Int) : Bool :=
  h.lastTick ≠ 0 ∧ (now - h.lastTick > interval + tStall ∨
    wall - now - h.lastSkew > tStall ∨ wall - now - h.lastSkew < -tStall)

/-- tick detects a stall, which invalidates every shard. -/
def tick (now wall : Int) : Holder :=
  { h with
    shards := if h.stalled now wall then ∅ else h.shards
    lastTick := now
    lastSkew := wall - now }

def segments (s : Held) (resourceType principal : String) : List Segment :=
  match s.shard.subjects.lookup principal with
  | none => []
  | some entry =>
    if entry.accountsDisabled then []
    else entry.segments.filter fun seg => seg.resourceType = "" ∨ seg.resourceType = resourceType

def securityVersion (s : Held) (principal : String) : Int :=
  ((s.shard.subjects.lookup principal).map (·.securityVersion)).getD 0

/-- A high-risk operation counts from the last renewal that was not read-only. -/
def validTill (s : Held) (high : Bool) : Int :=
  (if high then s.highAt else s.sentAt) + validity (if high then wHigh else wRead)

def refused (s : Held) (resourceType : String) (high : Bool) (now : Int) : Bool :=
  s.stopped = true ∨ s.suspended = true ∨ resourceType ∉ s.shard.applicability ∨
    high = true ∧ s.hasHigh = false ∨ validTill s high ≤ now

/-- Lookup finds the subject's segments in a valid shard, going through the shards in `order`. The
name is the shard it uses. -/
def lookup (resourceType principal : String) (high : Bool) (now : Int) :
    List String → Option (String × Held × Grant)
  | [] => none
  | name :: order =>
    match h.shards.lookup name with
    | none => lookup resourceType principal high now order
    | some s =>
      if refused s resourceType high now then
        lookup resourceType principal high now order
      else
        some (name, s,
          { segments := segments s resourceType principal, cutoff := validTill s high,
            securityVersion := securityVersion s principal })

/-- LookupStale is for a tightening-only operation the ordinary lookup refused. -/
def lookupStale (resourceType principal : String) (now wall : Int) :
    List String → Option (String × Held × Grant)
  | [] => none
  | name :: order =>
    match h.shards.lookup name with
    | none => lookupStale resourceType principal now wall order
    | some s =>
      if s.sourceStale = false ∨ s.hasHigh = false ∨ s.stopped = true ∨ s.suspended = true ∨
          resourceType ∉ s.shard.applicability then
        lookupStale resourceType principal now wall order
      else
        some (name, s,
          { segments := segments s resourceType principal, cutoff := now + validity wRead,
            securityVersion := securityVersion s principal, stale := true,
            since := wall + (s.highAt - now) })

end Holder

/-! ## Runs of a holder -/

/-- What the log has: a view that a lookup used, and a shard that was stopped, each under the
generation accepted then. -/
inductive ViewNote where
  | used (shard : String) (gen : Int) (revisions : List Revision)
  | stopped (shard : String) (gen : Int)

structure System where
  holder : Holder
  log : List ViewNote

inductive ViewAction where
  | verify (nonce : String) (ans : VerifyAnswer) (sent : Int)
  | rest (now wall : Int)
  | tick (now wall : Int)
  | lookup (resourceType principal : String) (high : Bool) (now : Int) (order : List String)
  | lookupStale (resourceType principal : String) (now wall : Int) (order : List String)

def System.use (s : System) (found : Option (String × Held × Grant)) : System :=
  match found with
  | none => s
  | some (name, held, _) =>
    { s with log := s.log ++ [.used name s.holder.recovery held.shard.securityRevisions] }

def viewStep (s : System) : ViewAction → Option System
  | .verify nonce ans sent =>
    let (holder, stops) := s.holder.verify nonce ans sent
    some { holder := holder, log := s.log ++ stops.map fun name => .stopped name holder.recovery }
  | .rest now wall => some { s with holder := s.holder.rest now wall }
  | .tick now wall => some { s with holder := s.holder.tick now wall }
  | .lookup resourceType principal high now order =>
    some (s.use (s.holder.lookup resourceType principal high now order))
  | .lookupStale resourceType principal now wall order =>
    some (s.use (s.holder.lookupStale resourceType principal now wall order))

/-- NewHolder: after a start there is no trusted view. -/
def System.init (defs : Option Definitions) : System where
  holder := { defs := defs, shards := ∅ }
  log := []

end BeSdk.Authz
