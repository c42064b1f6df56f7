import Mathlib.Data.Int.Notation
import Mathlib.Data.Nat.Notation
import Mathlib.Logic.Function.Basic

/-!
# The LRU and TTL cache as the code keeps it

`entries_` is a sequence of list nodes and `index_` maps a key to the identity
of a node, the model of a `std::list` iterator.  Following an identity that no
node of the list carries is undefined behaviour in the source; here the
operation returns `none`.
-/

namespace CurrencyConverter

/-- What `isExpired` asks of a clock: differences of readings, their order, and
minutes in the clock's own unit. -/
class Ticks (T : Type) extends Sub T, LT T where
  decidableLT : DecidableLT T
  ofMinutes : ℤ → T

instance Ticks.instDecidableLT (T : Type) [Ticks T] : DecidableLT T := Ticks.decidableLT

/-- Nanoseconds as exact integers, as if the 64 bits of `steady_clock::duration` never wrapped;
for an age they do from 153722868 minutes on. -/
instance : Ticks ℤ where
  decidableLT := inferInstance
  ofMinutes m := m * 60000000000

/-- Nanoseconds in the 64 signed bits of `steady_clock::duration`. -/
instance : Ticks Int64 where
  decidableLT := inferInstance
  ofMinutes m := Int64.ofInt m * 60000000000

/-- A node of `entries_`; `node` is its identity, the rest is `Entry`. -/
structure Entry (K V T : Type) where
  node : ℕ
  key : K
  value : V
  insertedAt : T

/-- `maxAge` counts minutes, and `nextNode` is the identity of the next node
the list allocates. -/
structure TimeAndSizeBoundedCache (K V T : Type) where
  maxAge : ℤ
  maxElements : ℕ
  entries : List (Entry K V T)
  index : K → Option ℕ
  nextNode : ℕ

structure InvalidArgument where
  what : String
  deriving DecidableEq

namespace TimeAndSizeBoundedCache

variable {K V T : Type} [DecidableEq K] [Ticks T]

def construct (maxAge : ℤ) (maxElements : ℕ) :
    Except InvalidArgument (TimeAndSizeBoundedCache K V T) :=
  if maxElements = 0 then .error ⟨"max_elements must be > 0"⟩
  else .ok ⟨maxAge, maxElements, [], fun _ ↦ none, 0⟩

/-- Whether an entry put in at `insertedAt` is past `maxAge` at `now`. -/
def isExpired (maxAge : ℤ) (now insertedAt : T) : Bool :=
  decide (Ticks.ofMinutes maxAge < now - insertedAt)

def deref (c : TimeAndSizeBoundedCache K V T) (it : ℕ) : Option (Entry K V T) :=
  c.entries.find? fun e ↦ e.node = it

def eraseNode (c : TimeAndSizeBoundedCache K V T) (it : ℕ) : List (Entry K V T) :=
  c.entries.filter fun e ↦ e.node ≠ it

def get (c : TimeAndSizeBoundedCache K V T) (now : T) (key : K) :
    Option (Option V × TimeAndSizeBoundedCache K V T) :=
  match c.index key with
  | none => some (none, c)
  | some it =>
      match c.deref it with
      | none => none
      | some e =>
          if isExpired c.maxAge now e.insertedAt then
            some (none, { c with
              entries := c.eraseNode it
              index := Function.update c.index key none })
          else
            some (some e.value, { c with entries := e :: c.eraseNode it })

/-- The first half of `put`: an entry already stored under the key goes. -/
def dropKey (c : TimeAndSizeBoundedCache K V T) (key : K) :
    Option (TimeAndSizeBoundedCache K V T) :=
  match c.index key with
  | none => some c
  | some it =>
      match c.deref it with
      | none => none
      | some _ => some { c with
          entries := c.eraseNode it
          index := Function.update c.index key none }

def pushFront (c : TimeAndSizeBoundedCache K V T) (now : T) (key : K) (value : V) :
    TimeAndSizeBoundedCache K V T :=
  { c with
    entries := ⟨c.nextNode, key, value, now⟩ :: c.entries
    index := Function.update c.index key (some c.nextNode)
    nextNode := c.nextNode + 1 }

/-- The capacity test at the end of `put`; `back()` of an empty list is
undefined. -/
def evictOldest (c : TimeAndSizeBoundedCache K V T) : Option (TimeAndSizeBoundedCache K V T) :=
  if c.maxElements < c.entries.length then
    match c.entries.getLast? with
    | none => none
    | some oldest => some { c with
        entries := c.entries.dropLast
        index := Function.update c.index oldest.key none }
  else some c

def put (c : TimeAndSizeBoundedCache K V T) (now : T) (key : K) (value : V) :
    Option (TimeAndSizeBoundedCache K V T) :=
  match c.dropKey key with
  | none => none
  | some c' => (c'.pushFront now key value).evictOldest

/-- The loop of `sweepExpired` from its `i`-th visited entry on: the clock is
read anew for each entry, an expired one leaves the index and the list, any
other one is stepped over. -/
def sweepFrom (maxAge : ℤ) (clock : ℕ → T) :
    ℕ → List (Entry K V T) → (K → Option ℕ) → List (Entry K V T) × (K → Option ℕ)
  | _, [], index => ([], index)
  | i, e :: rest, index =>
      if isExpired maxAge (clock i) e.insertedAt then
        sweepFrom maxAge clock (i + 1) rest (Function.update index e.key none)
      else
        let swept := sweepFrom maxAge clock (i + 1) rest index
        (e :: swept.1, swept.2)

def sweepExpired (c : TimeAndSizeBoundedCache K V T) (clock : ℕ → T) :
    TimeAndSizeBoundedCache K V T :=
  let swept := sweepFrom c.maxAge clock 0 c.entries c.index
  { c with entries := swept.1, index := swept.2 }

/-- One call under the mutex, with the clock readings it takes. -/
inductive Op (K V T : Type)
  | get (now : T) (key : K)
  | put (now : T) (key : K) (value : V)
  | sweepExpired (clock : ℕ → T)

def exec (c : TimeAndSizeBoundedCache K V T) :
    Op K V T → Option (Option V × TimeAndSizeBoundedCache K V T)
  | .get now key => c.get now key
  | .put now key value => (c.put now key value).map fun c' ↦ (none, c')
  | .sweepExpired clock => some (none, c.sweepExpired clock)

/-- The cache after a sequence of calls, `none` once one of them is undefined. -/
def run (c : TimeAndSizeBoundedCache K V T) :
    List (Op K V T) → Option (TimeAndSizeBoundedCache K V T)
  | [] => some c
  | op :: ops =>
      match c.exec op with
      | none => none
      | some (_, c') => c'.run ops

end TimeAndSizeBoundedCache

end CurrencyConverter
