import Lifeline.Column
import Lifeline.Assembly.Fault

/-! A ledger gives a number to every column that it hears of. -/

namespace Lifeline

/-- A slip stops the work on a document. It is a fault of the document, or a number or a place that
is outside of its list. -/
inductive Slip where
  | fault (fault : Fault)
  | outside
  deriving DecidableEq

inductive ColumnKind where
  | outer
  | participant
  | edge
  deriving DecidableEq

structure LedgerEntry where
  name : String
  kind : ColumnKind
  visible : Bool := false
  deriving DecidableEq

/-- The number of a column is the place of its entry. The index finds outer columns and participants
by their names; edges are never looked up. -/
structure Ledger where
  entries : List LedgerEntry := []
  index : List (String × Nat) := []
  order : List Nat := []
  deriving DecidableEq

namespace Ledger

/-- A new entry gets the next number. It has no place in the order until it is put there. -/
def push (ledger : Ledger) (name : String) (kind : ColumnKind) : Ledger × Nat :=
  ({ ledger with entries := ledger.entries ++ [{ name, kind }] }, ledger.entries.length)

/-- An enlisted name can be looked up from then on. -/
def enlist (ledger : Ledger) (name : String) (kind : ColumnKind) : Ledger × Nat :=
  let (next, number) := ledger.push name kind
  ({ next with index := (name, number) :: next.index }, number)

/-- The ledger begins with the two outer columns. -/
def start : Ledger :=
  [Side.left, Side.right].foldl
    (fun ledger side =>
      let (next, number) := ledger.enlist side.bracket .outer
      { next with order := next.order ++ [number] })
    {}

def entry (ledger : Ledger) (number : Nat) : Except Slip LedgerEntry :=
  match ledger.entries[number]? with
  | some entry => .ok entry
  | none => .error .outside

def name (ledger : Ledger) (number : Nat) : Except Slip String :=
  (ledger.entry number).map LedgerEntry.name

/-- This is the last place of the order. -/
def lastPlace (ledger : Ledger) : Except Slip Nat :=
  match ledger.order.length with
  | 0 => .error .outside
  | count + 1 => .ok count

/-- A number is put at a place, and the numbers from there on move up. -/
def insertAt (ledger : Ledger) (place number : Nat) : Except Slip Ledger :=
  if place ≤ ledger.order.length then
    .ok { ledger with order := ledger.order.insertIdx place number }
  else .error .outside

/-- A name that is known keeps its number; any other gets a number in front of the last one. -/
def intern (ledger : Ledger) (name : String) : Except Slip (Ledger × Nat) :=
  match ledger.index.lookup name with
  | some number => .ok (ledger, number)
  | none =>
      let (next, number) := ledger.enlist name .participant
      next.lastPlace.bind fun place =>
        (next.insertAt place number).map fun placed => (placed, number)

/-- The names are looked up one after another. -/
def internAll (ledger : Ledger) : List String → Except Slip (Ledger × List Nat)
  | [] => .ok (ledger, [])
  | name :: rest =>
      (ledger.intern name).bind fun (next, number) =>
        (next.internAll rest).map fun (last, numbers) => (last, number :: numbers)

def setVisible (ledger : Ledger) (visible : Bool) (number : Nat) : Except Slip Ledger :=
  (ledger.entry number).map fun entry =>
    { ledger with entries := ledger.entries.set number { entry with visible } }

/-- A number is chosen, once, if its participant can undergo a change. -/
def choose (ledger : Ledger) (change : Change) (chosen : List Nat) (number : Nat) :
    Except Slip (List Nat) :=
  (ledger.entry number).map fun entry =>
    if entry.kind != .outer && entry.visible == change.fromVisible && !chosen.contains number
    then chosen ++ [number]
    else chosen

/-- These are the numbers, each once, whose participants can undergo a change. -/
def select (ledger : Ledger) (change : Change) (numbers : List Nat) : Except Slip (List Nat) :=
  numbers.foldlM (ledger.choose change) []

/-- The number of an outer column is not counted as used, and no number is counted twice. -/
def mark (ledger : Ledger) (used : List Nat) (number : Nat) : Except Slip (List Nat) :=
  (ledger.entry number).map fun entry =>
    if entry.kind == .outer || used.contains number then used else used ++ [number]

def markUsed (ledger : Ledger) (used numbers : List Nat) : Except Slip (List Nat) :=
  numbers.foldlM ledger.mark used

/-- The place of a number is where it stands in the order. -/
def position (order : List Nat) (number : Nat) : Option Nat := order.idxOf? number

/-- These are the numbers that have a place, behind their places. -/
def placed (order used : List Nat) : List (Nat × Nat) :=
  used.filterMap fun number => (position order number).map fun place => (place, number)

section Beside

variable (spare : Nat → Except Slip Nat)

/-- A number is put in front of another one. If that one has no place, the spare decides, which is
given the last place. -/
def insertBefore (ledger : Ledger) (number neighbour : Nat) : Except Slip Ledger :=
  ledger.lastPlace.bind fun last =>
    match position ledger.order neighbour with
    | some place => ledger.insertAt place number
    | none => (spare last).bind fun place => ledger.insertAt place number

/-- A number is put behind another one. If that one has no place, the spare decides, which is given
the last place. -/
def insertBehind (ledger : Ledger) (number neighbour : Nat) : Except Slip Ledger :=
  ledger.lastPlace.bind fun last =>
    match position ledger.order neighbour with
    | some place => ledger.insertAt (place + 1) number
    | none => (spare last).bind fun place => ledger.insertAt place number

/-- This is the number at a place of the order. -/
def numberAt (ledger : Ledger) (place : Nat) : Except Slip Nat :=
  match ledger.order[place]? with
  | some number => .ok number
  | none => .error .outside

/-- The edges of a block stand beside the first and the last number that it uses. Without any number
that has a place, they span the whole diagram. No two numbers have one place. -/
def enclose (ledger : Ledger) (left right : Nat) (used : List Nat) : Except Slip Ledger :=
  match (placed ledger.order used).minOn? Prod.fst, (placed ledger.order used).maxOn? Prod.fst with
  | some (_, first), some (_, last) =>
      (ledger.insertBefore spare left first).bind fun next => next.insertBehind spare right last
  | _, _ =>
      (ledger.numberAt 0).bind fun outerLeft =>
        (ledger.lastPlace.bind ledger.numberAt).bind fun outerRight =>
          (ledger.insertBehind spare left outerLeft).bind fun next =>
            next.insertBefore spare right outerRight

end Beside

/-- These are the visible participants in the order of their columns. -/
def visibleInOrder (ledger : Ledger) : Except Slip (List Nat) :=
  (ledger.order.mapM fun number => (ledger.entry number).map fun entry => (number, entry)).map
    fun listed => (listed.filter fun (_, entry) => entry.kind == .participant && entry.visible).map
      Prod.fst

/-- Each name is taken out of its entry and leaves an empty text behind. -/
def takeNames (entries : List LedgerEntry) : List Nat → Except Slip (List String)
  | [] => .ok []
  | number :: rest =>
      match entries[number]? with
      | some entry =>
          (takeNames (entries.set number { entry with name := "" }) rest).map (entry.name :: ·)
      | none => .error .outside

/-- These are the names of the columns in their order. -/
def names (ledger : Ledger) : Except Slip (List String) := takeNames ledger.entries ledger.order

end Ledger

end Lifeline
