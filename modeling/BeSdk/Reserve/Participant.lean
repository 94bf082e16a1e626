import BeSdk.Library.Runs
import BeSdk.Reserve.Lifecycle
import Mathlib

/-!
# A reservation participant

`reserve/reserve.go` over `be_reserve_branch` and `be_reserve_consumption`, with the component whose
resources the branches hold.  Each command is one transaction at READ COMMITTED, and any number of
them are under way at once, on any branches.

What a transaction writes is seen by nobody before it commits, so the tables here are the committed
ones and a transaction carries what it will write.  What keeps transactions apart are the locks:
`owner` says whose row of `be_reserve_branch` it is, inserted and not committed or locked `FOR
UPDATE`, and `pending` whose row of `be_reserve_consumption`.  An insert waits for an uncommitted
row with its key and finds a committed one, whoever has locked it.  Once a transaction owns the
branch's row nothing it still reads can change, so what it decides from there on is one step.

The component's resources are a group of amounts, and its part is taken as documented: `Take` takes
the whole content exactly when it answers enough, `Use` takes the consumption off what the branch
holds unless it answers beyond, and answers whether something is left, `GiveBack` returns what the
branch has not consumed.  When they answer so is up to them.  The component's own lock only makes
transactions wait longer, and every one of them may fail anywhere.

`now()` is a transaction's start, so each has its own, in any order.
-/

namespace BeSdk.Reserve

open Function

/-! ## Branches and what they hold -/

/-- A branch's row. -/
structure Branch where
  kind : String
  state : BranchState
  reason : Option String := none
  digest : Option String := none
  holdExpiresAt : Option Int := none
  confirmedAt : Option Int := none
  version : Nat := 1
deriving DecidableEq, Repr

/-- A hold whose period is over. -/
def Branch.past (b : Branch) (now : Int) : Bool := b.state = .held ∧ b.holdExpiresAt.any (· ≤ now)

def Branch.move (b : Branch) (now : Int) (to_ : BranchState) : Branch :=
  { b with
    state := to_
    holdExpiresAt := if to_ = .held then b.holdExpiresAt else none
    confirmedAt := if to_ = .committed ∧ b.confirmedAt = none then some now else b.confirmedAt
    version := b.version + 1 }

/-- The row of a used consumption ID. -/
structure Consumption where
  branch : String
  digest : String
deriving DecidableEq, Repr

/-- The component's account of one branch: what was taken for it, consumed and given back, what it
holds, and how often it was taken for and given back. -/
structure Account (A : Type*) [Zero A] where
  taken : A := 0
  consumed : A := 0
  givenBack : A := 0
  holds : A := 0
  takes : Nat := 0
  giveBacks : Nat := 0
deriving DecidableEq

namespace Account

variable {A : Type*} [AddCommGroup A]

def take (a : Account A) (content : A) : Account A :=
  { a with taken := a.taken + content, holds := a.holds + content, takes := a.takes + 1 }

def use (a : Account A) (amount : A) : Account A :=
  { a with consumed := a.consumed + amount, holds := a.holds - amount }

def giveBack (a : Account A) : Account A :=
  { a with
    givenBack := a.givenBack + (a.taken - a.consumed)
    holds := a.holds - (a.taken - a.consumed)
    giveBacks := a.giveBacks + 1 }

end Account

/-- What a command did; no branch is the answer `absent`. -/
structure Answer where
  branch : Option Branch
  conflict : Bool := false
  refused : Option Refusal := none
  repeated : Bool := false
deriving DecidableEq, Repr

/-! ## Transactions -/

/-- The commands; `kind` is the participation's name. -/
inductive Call (A : Type*)
  | hold (kind id digest : String) (content : A)
  | confirm (kind id : String)
  | cancel (kind id : String)
  | consume (kind id consumption digest : String) (amount : A)
  -- one of the branches that ExpireDue found due
  | expire (kind id : String)
deriving DecidableEq, Repr

namespace Call

variable {A : Type*}

def kind : Call A → String
  | hold kind _ _ _ | confirm kind _ | cancel kind _ | consume kind _ _ _ _ | expire kind _ => kind

def id : Call A → String
  | hold _ id _ _ | confirm _ id | cancel _ id | consume _ id _ _ _ | expire _ id => id

def consumption : Call A → Option String
  | consume _ _ consumption _ _ => some consumption
  | _ => none

end Call

/-- How far the call of a transaction has come. -/
inductive Place (A : Type*) [Zero A]
  | start
  -- Hold and Cancel: the row is there already
  | there
  -- Hold: the row is inserted, `take` is next
  | inserted
  -- Consume: the ID is not used
  | unused
  -- Consume: the ID is used
  | used (by_ : Consumption)
  -- `locked` has found the branch, and locks it next
  | seen
  -- Consume: the branch is locked and not refused, `use` is next
  | holding (b : Branch)
  -- Consume: `use` answered, the consumption's row is next
  | took (b : Branch) (account : Account A) (d : Decision)
  -- all is done but the commit, which writes the branch with its account, and the consumption's
  -- row when the ID is recorded
  | ready (write : Option (Branch × Account A)) (records : Bool) (answer : Answer)
  -- an error: the transaction can only be rolled back
  | failed (duplicate : Bool)
deriving DecidableEq

/-- An open transaction. -/
structure Tx (A : Type*) [Zero A] where
  call : Call A
  now : Int
  at_ : Place A := .start
deriving DecidableEq

/-- How a transaction ended, when it matters. -/
inductive Outcome
  | answered (answer : Answer)
  -- rolled back on the duplicate consumption ID
  | duplicate
deriving DecidableEq, Repr

/-- A transaction that ended. -/
structure Ended (A : Type*) where
  call : Call A
  outcome : Outcome
deriving DecidableEq, Repr

/-- What the deployment sets, and what PostgreSQL does to an ID. -/
structure Config where
  -- a kind's hold period
  period : String → Int
  -- the text of an ID as the database gives it back
  canon : String → String

/-- The tables, the locks (`owner`, `pending`), the open transactions and the ended ones. -/
structure Participant (A : Type*) [Zero A] where
  branches : String → Option Branch
  accounts : String → Account A
  consumptions : String → Option Consumption
  owner : String → Option Nat
  pending : String → Option Nat
  txs : Nat → Option (Tx A)
  log : List (Ended A)

/-- The steps of a transaction `f`. -/
inductive Action (A : Type*)
  | begin (f : Nat) (call : Call A) (now : Int)
  -- the INSERT of Hold or Cancel
  | insert (f : Nat)
  -- Hold's read of a branch seen before
  | readThere (f : Nat)
  | take (f : Nat) (enough : Bool) (reason : String)
  -- Consume's look for its ID
  | check (f : Nat)
  -- Consume's read of the branch when the ID is used
  | readUsed (f : Nat)
  -- `locked`'s first read
  | look (f : Nat)
  -- `Lock` and the read `FOR UPDATE`, with what follows from it
  | lock (f : Nat)
  | use (f : Nat) (beyond : Bool)
  -- the INSERT of the consumption's row
  | record (f : Nat)
  | commit (f : Nat)
  -- an error anywhere
  | rollback (f : Nat)
deriving DecidableEq, Repr

def Action.of {A : Type*} : Action A → Nat
  | .begin f _ _ | .insert f | .readThere f | .take f _ _ | .check f | .readUsed f | .look f
  | .lock f | .use f _ | .record f | .commit f | .rollback f => f

variable {A : Type*} [AddCommGroup A]

namespace Participant

variable (cfg : Config) (s : Participant A)

def goTo (f : Nat) (tx : Tx A) (at_ : Place A) : Participant A :=
  { s with txs := update s.txs f (some { tx with at_ := at_ }) }

def own (f : Nat) (key : String) : Participant A :=
  { s with owner := update s.owner key (some f) }

/-- The locks of the transaction are gone with it. -/
def release (f : Nat) : Participant A :=
  { s with
    owner := fun key => if s.owner key = some f then none else s.owner key
    pending := fun id => if s.pending id = some f then none else s.pending id
    txs := update s.txs f none }

/-- The ID as the tables have it. -/
def key (tx : Tx A) : String := cfg.canon tx.call.id

/-- read, of a row of another kind. -/
def errKind (tx : Tx A) (b : Branch) : Bool := b.kind ≠ tx.call.kind

/-- The INSERT of Hold or Cancel: `at_` is where the transaction is with the row it inserted. -/
def insert (f : Nat) (tx : Tx A) (at_ : Place A) : Option (Participant A) :=
  match s.branches (key cfg tx), s.owner (key cfg tx) with
  | some _, _ => some (s.goTo f tx .there)
  | none, none => some ((s.goTo f tx at_).own f (key cfg tx))
  | none, some _ => none

/-- Cancel's tombstone. -/
def tombstone (kind : String) (account : Account A) : Place A :=
  let b : Branch := { kind := kind, state := .cancelled }
  .ready (some (b, account)) false { branch := some b }

/-- Hold on a branch seen before. -/
def readThere (tx : Tx A) (digest : String) (b : Branch) : Place A :=
  if errKind tx b then .failed false
  else
    let c : Command := if b.digest.getD "" = digest then .holdSame else .holdOther
    let d := b.state.decide (b.past tx.now) c
    .ready none false { branch := some b, conflict := d.conflict, repeated := !d.conflict }

/-- The rest of Hold on a new branch. -/
def taken (tx : Tx A) (kind digest : String) (content : A) (account : Account A) (enough : Bool)
    (reason : String) : Place A :=
  let d := BranchState.absent.decide false (if enough then .holdEnough else .holdShort)
  let b : Branch :=
    { kind := kind, state := d.to_, digest := some digest
      reason := if !enough ∧ reason ≠ "" then some reason else none
      holdExpiresAt := if d.to_ = .held then some (tx.now + cfg.period kind) else none }
  .ready (some (b, if enough then account.take content else account)) false { branch := some b }

/-- Consume with an ID that is used. -/
def readUsed (tx : Tx A) (id digest : String) (by_ : Consumption) (b : Option Branch) : Place A :=
  match b with
  | some b =>
    if errKind tx b then .failed false
    else
      let c : Command :=
        if by_.branch = id ∧ by_.digest = digest then .consumeUsedSame else .consumeUsedOther
      let d := b.state.decide (b.past tx.now) c
      .ready none false { branch := some b, conflict := d.conflict, repeated := !d.conflict }
  | none =>
    let c : Command :=
      if by_.branch = id ∧ by_.digest = digest then .consumeUsedSame else .consumeUsedOther
    let d := BranchState.absent.decide false c
    .ready none false { branch := none, conflict := d.conflict, repeated := !d.conflict }

/-- The places from which `locked` is called. -/
def looks (tx : Tx A) : Bool :=
  match tx.call, tx.at_ with
  | .confirm .., .start | .expire .., .start | .cancel .., .there | .consume .., .unused => true
  | _, _ => false

/-- `locked`'s first read: what the command answers when the branch is not stored. -/
def look (tx : Tx A) (b : Option Branch) : Place A :=
  match b with
  | some b => if errKind tx b then .failed false else .seen
  | none =>
    match tx.call with
    | .consume .. =>
      .ready none false { branch := none, refused := (BranchState.absent.decide false
        .consumeWithin).refused }
    | _ => .ready none false { branch := none }

/-- What a decision makes of the locked branch. -/
def apply (now : Int) (b : Branch) (account : Account A) (d : Decision) (records : Bool) :
    Place A :=
  let account := if d.resource = .givesBack then account.giveBack else account
  if d.changed then
    .ready (some (b.move now d.to_, account)) records { branch := some (b.move now d.to_) }
  else
    .ready (some (b, account)) records
      { branch := some b, conflict := d.conflict, refused := d.refused }

/-- What follows from the read `FOR UPDATE`. -/
def locked (tx : Tx A) (b : Branch) (account : Account A) : Place A :=
  match tx.call with
  | .hold .. => .failed false
  | .confirm .. => apply tx.now b account (b.state.decide (b.past tx.now) .confirm) false
  | .cancel .. => apply tx.now b account (b.state.decide (b.past tx.now) .cancel) false
  | .expire .. => apply tx.now b account (b.state.decide (b.past tx.now) .expire) false
  | .consume .. =>
    match (b.state.decide (b.past tx.now) .consumeWithin).refused with
    | some refusal => .ready none false { branch := some b, refused := some refusal }
    | none => .holding b

/-- Consume after `use`. -/
def used [DecidableEq A] (tx : Tx A) (amount : A) (b : Branch) (account : Account A)
    (beyond : Bool) : Place A :=
  let after := account.use amount
  let c : Command :=
    if beyond then .consumeBeyond else if after.holds ≠ 0 then .consumeWithin else .consumeExact
  let d := b.state.decide (b.past tx.now) c
  match d.refused with
  | some refusal => .ready none false { branch := some b, refused := some refusal }
  | none => .took b after d

/-- The INSERT of the consumption's row: it fails on a committed one and waits for one that is not
committed yet. -/
def record (f : Nat) (tx : Tx A) (id : String) (b : Branch) (account : Account A) (d : Decision) :
    Option (Participant A) :=
  match s.consumptions id with
  | some _ => some (s.goTo f tx (.failed true))
  | none =>
    if s.pending id = none then
      some { s.goTo f tx (apply tx.now b account d true) with
        pending := update s.pending id (some f) }
    else none

/-- The tables after the commit. -/
def written (tx : Tx A) (write : Option (Branch × Account A)) (records : Bool) : Participant A :=
  let s := match write with
    | some (b, account) =>
      { s with
        branches := update s.branches (key cfg tx) (some b)
        accounts := update s.accounts (key cfg tx) account }
    | none => s
  match tx.call, records with
  | .consume _ _ consumption digest _, true =>
    { s with
      consumptions := update s.consumptions consumption (some ⟨key cfg tx, digest⟩) }
  | _, _ => s

theorem written_txs (tx : Tx A) (write : Option (Branch × Account A)) (records : Bool) :
    (s.written cfg tx write records).txs = s.txs := by
  unfold written
  cases write <;> dsimp only <;> split <;> rfl

def step [DecidableEq A] (s : Participant A) : Action A → Option (Participant A)
  | .begin f call now =>
    match s.txs f with
    | none => some { s with txs := update s.txs f (some { call := call, now := now }) }
    | some _ => none
  | .insert f =>
    match s.txs f with
    | some ⟨.hold kind id digest content, now, .start⟩ =>
      s.insert cfg f ⟨.hold kind id digest content, now, .start⟩ .inserted
    | some ⟨.cancel kind id, now, .start⟩ =>
      let tx : Tx A := ⟨.cancel kind id, now, .start⟩
      s.insert cfg f tx (tombstone kind (s.accounts (key cfg tx)))
    | _ => none
  | .readThere f =>
    match s.txs f with
    | some ⟨.hold kind id digest content, now, .there⟩ =>
      let tx : Tx A := ⟨.hold kind id digest content, now, .there⟩
      -- read `FOR UPDATE`, so it waits for the row
      match s.branches (key cfg tx), s.owner (key cfg tx) with
      | some b, none => some ((s.goTo f tx (readThere tx digest b)).own f (key cfg tx))
      | _, _ => none
    | _ => none
  | .take f enough reason =>
    match s.txs f with
    | some ⟨.hold kind id digest content, now, .inserted⟩ =>
      let tx : Tx A := ⟨.hold kind id digest content, now, .inserted⟩
      some (s.goTo f tx
        (taken cfg tx kind digest content (s.accounts (key cfg tx)) enough reason))
    | _ => none
  | .check f =>
    match s.txs f with
    | some ⟨.consume kind id consumption digest amount, now, .start⟩ =>
      let tx : Tx A := ⟨.consume kind id consumption digest amount, now, .start⟩
      match s.consumptions consumption with
      | some by_ => some (s.goTo f tx (.used by_))
      | none => some (s.goTo f tx .unused)
    | _ => none
  | .readUsed f =>
    match s.txs f with
    | some ⟨.consume kind id consumption digest amount, now, .used by_⟩ =>
      let tx : Tx A := ⟨.consume kind id consumption digest amount, now, .used by_⟩
      some (s.goTo f tx (readUsed tx id digest by_ (s.branches (key cfg tx))))
    | _ => none
  | .look f =>
    match s.txs f with
    | some tx => if looks tx then some (s.goTo f tx (look tx (s.branches (key cfg tx)))) else none
    | none => none
  | .lock f =>
    match s.txs f with
    | some ⟨call, now, .seen⟩ =>
      let tx : Tx A := ⟨call, now, .seen⟩
      -- rows are never deleted, so the one that was seen is there
      match s.branches (key cfg tx), s.owner (key cfg tx) with
      | some b, none =>
        some ((s.goTo f tx (locked tx b (s.accounts (key cfg tx)))).own f (key cfg tx))
      | _, _ => none
    | _ => none
  | .use f beyond =>
    match s.txs f with
    | some ⟨.consume kind id consumption digest amount, now, .holding b⟩ =>
      let tx : Tx A := ⟨.consume kind id consumption digest amount, now, .holding b⟩
      some (s.goTo f tx (used tx amount b (s.accounts (key cfg tx)) beyond))
    | _ => none
  | .record f =>
    match s.txs f with
    | some ⟨.consume kind id consumption digest amount, now, .took b account d⟩ =>
      s.record f ⟨.consume kind id consumption digest amount, now, .took b account d⟩
        consumption b account d
    | _ => none
  | .commit f =>
    match s.txs f with
    | some ⟨call, now, .ready write records answer⟩ =>
      let tx : Tx A := ⟨call, now, .ready write records answer⟩
      some { (s.written cfg tx write records).release f with
        log := s.log ++ [⟨call, .answered answer⟩] }
    | _ => none
  | .rollback f =>
    match s.txs f with
    | some ⟨call, _, .failed true⟩ => some { s.release f with log := s.log ++ [⟨call, .duplicate⟩] }
    | some _ => some (s.release f)
    | none => none

/-- A step leaves the other transactions where they are. -/
theorem step_txs_of_ne [DecidableEq A] {cfg : Config} {s s' : Participant A} {a : Action A}
    (hstep : step cfg s a = some s') {g : Nat} (hne : g ≠ a.of) : s'.txs g = s.txs g := by
  have hgoes : ∀ (f : Nat) (tx : Tx A) (at_ : Place A), g ≠ f →
      (s.goTo f tx at_).txs g = s.txs g := fun f tx at_ hf => by
    simp [goTo, update_of_ne hf]
  have hleaves : ∀ (t : Participant A) (f : Nat), g ≠ f → (t.release f).txs g = t.txs g :=
    fun t f hf => by simp [release, update_of_ne hf]
  cases a <;> simp only [step, insert, record, Action.of] at hstep hne <;>
    repeat' split at hstep
  all_goals cases hstep
  all_goals first
    | exact hgoes _ _ _ hne
    | exact hleaves _ _ hne
    | exact (hleaves _ _ hne).trans (congrFun (written_txs cfg s _ _ _) g)
    | simp [update_of_ne hne]

def init (A : Type*) [AddCommGroup A] : Participant A :=
  { branches := fun _ => none, accounts := fun _ => {}, consumptions := fun _ => none,
    owner := fun _ => none, pending := fun _ => none, txs := fun _ => none, log := [] }

end Participant
end BeSdk.Reserve
