import EzPacker.Lib.LinkedSegment

/-!
# The intrusive linked list

The nodes carry the links and each list holds its first and its last node and a count. An iterator
is the node that it points to, with `none` past the end; `none` as the result of an operation is a
dereferenced null pointer, or a walk that takes more than `fuel` steps.
-/

namespace EzPacker.LinkedList

structure IntrusiveLinkedList (α : Type) where
  head : Option α
  tail : Option α
  size : ℕ
  deriving DecidableEq

namespace IntrusiveLinkedList

def nil {α : Type} : IntrusiveLinkedList α := ⟨none, none, 0⟩

def empty {α : Type} (list : IntrusiveLinkedList α) : Bool := list.size = 0

end IntrusiveLinkedList

/-- The links of all nodes and the lists that hold them. -/
structure Memory (ι α : Type) where
  links : Links α
  lists : ι → IntrusiveLinkedList α

variable {ι α : Type}

namespace Memory

section Links

variable [DecidableEq α]

def setPrev (mem : Memory ι α) (node : α) (prev : Option α) : Memory ι α :=
  { mem with links := mem.links.setPrev node prev }

def setNext (mem : Memory ι α) (node : α) (next : Option α) : Memory ι α :=
  { mem with links := mem.links.setNext node next }

section

variable (mem : Memory ι α) (node : α)
include mem node

@[simp] theorem setPrev_lists (prev : Option α) : (mem.setPrev node prev).lists = mem.lists := rfl

@[simp] theorem setNext_lists (next : Option α) : (mem.setNext node next).lists = mem.lists := rfl

@[simp] theorem setPrev_links (prev : Option α) :
    (mem.setPrev node prev).links = mem.links.setPrev node prev := rfl

@[simp] theorem setNext_links (next : Option α) :
    (mem.setNext node next).links = mem.links.setNext node next := rfl

end

end Links

section Lists

variable [DecidableEq ι]

def setList (mem : Memory ι α) (i : ι) (list : IntrusiveLinkedList α) : Memory ι α :=
  { mem with lists := Function.update mem.lists i list }

def setHead (mem : Memory ι α) (i : ι) (head : Option α) : Memory ι α :=
  mem.setList i { mem.lists i with head := head }

def setTail (mem : Memory ι α) (i : ι) (tail : Option α) : Memory ι α :=
  mem.setList i { mem.lists i with tail := tail }

def setSize (mem : Memory ι α) (i : ι) (size : ℕ) : Memory ι α :=
  mem.setList i { mem.lists i with size := size }

section Projections

variable (mem : Memory ι α) (i : ι)

@[simp] theorem setList_lists (list : IntrusiveLinkedList α) :
    (mem.setList i list).lists = Function.update mem.lists i list := rfl

@[simp] theorem setList_links (list : IntrusiveLinkedList α) :
    (mem.setList i list).links = mem.links := rfl

@[simp] theorem setHead_lists (head : Option α) :
    (mem.setHead i head).lists = Function.update mem.lists i
      { mem.lists i with head := head } := rfl

@[simp] theorem setHead_links (head : Option α) : (mem.setHead i head).links = mem.links := rfl

@[simp] theorem setTail_lists (tail : Option α) :
    (mem.setTail i tail).lists = Function.update mem.lists i
      { mem.lists i with tail := tail } := rfl

@[simp] theorem setTail_links (tail : Option α) : (mem.setTail i tail).links = mem.links := rfl

@[simp] theorem setSize_lists (size : ℕ) :
    (mem.setSize i size).lists = Function.update mem.lists i
      { mem.lists i with size := size } := rfl

@[simp] theorem setSize_links (size : ℕ) : (mem.setSize i size).links = mem.links := rfl

end Projections

end Lists

end Memory

variable [DecidableEq ι] [DecidableEq α]

def push_back (i : ι) (node : Option α) (mem : Memory ι α) : Memory ι α :=
  match node with
  | none => mem
  | some node =>
    let mem := mem.setPrev node (mem.lists i).tail
    let mem := mem.setNext node none
    let mem := match (mem.lists i).tail with
      | some tail => mem.setNext tail (some node)
      | none => mem.setHead i (some node)
    let mem := mem.setTail i (some node)
    mem.setSize i ((mem.lists i).size + 1)

def push_front (i : ι) (node : Option α) (mem : Memory ι α) : Memory ι α :=
  match node with
  | none => mem
  | some node =>
    let mem := mem.setNext node (mem.lists i).head
    let mem := mem.setPrev node none
    let mem := match (mem.lists i).head with
      | some head => mem.setPrev head (some node)
      | none => mem.setTail i (some node)
    let mem := mem.setHead i (some node)
    mem.setSize i ((mem.lists i).size + 1)

/-- The new node in front of the position; the result points to it. -/
def insert (i : ι) (pos node : Option α) (mem : Memory ι α) : Memory ι α × Option α :=
  match node with
  | none => (mem, pos)
  | some node =>
    match pos with
    | none => (push_back i (some node) mem, some node)
    | some curr =>
      if some curr = (mem.lists i).head then (push_front i (some node) mem, some node)
      else
        let prev := mem.links.prev curr
        let mem := mem.setPrev node prev
        let mem := mem.setNext node (some curr)
        let mem := match prev with
          | some prev => mem.setNext prev (some node)
          | none => mem
        let mem := mem.setPrev curr (some node)
        (mem.setSize i ((mem.lists i).size + 1), some node)

/-- The neighbours of an unlinked range become neighbours, or the new ends of the list. -/
def unlink (i : ι) (prev next : Option α) (mem : Memory ι α) : Memory ι α :=
  let mem := match prev with
    | some prev => mem.setNext prev next
    | none => mem.setHead i next
  match next with
  | some next => mem.setPrev next prev
  | none => mem.setTail i prev

def erase (i : ι) (pos : Option α) (mem : Memory ι α) : Memory ι α × Option α :=
  match pos with
  | none => (mem, none)
  | some curr =>
    let next := mem.links.next curr
    let prev := mem.links.prev curr
    let mem := unlink i prev next mem
    let mem := mem.setPrev curr none
    let mem := mem.setNext curr none
    (mem.setSize i ((mem.lists i).size - 1), next)

def remove (i : ι) (node : Option α) (mem : Memory ι α) : Memory ι α :=
  match node with
  | none => mem
  | some node => (erase i (some node) mem).1

def pop_front (i : ι) (mem : Memory ι α) : Memory ι α × Option α :=
  if (mem.lists i).empty then (mem, none)
  else ((erase i (mem.lists i).head mem).1, (mem.lists i).head)

def pop_back (i : ι) (mem : Memory ι α) : Memory ι α × Option α :=
  if (mem.lists i).empty then (mem, none)
  else ((erase i (mem.lists i).tail mem).1, (mem.lists i).tail)

/-- All nodes of the other list before the position. -/
def spliceList (i : ι) (pos : Option α) (other : ι) (mem : Memory ι α) : Option (Memory ι α) :=
  if (mem.lists other).empty ∨ i = other then some mem
  else do
    let first ← (mem.lists other).head
    let last ← (mem.lists other).tail
    let count := (mem.lists other).size
    let mem := mem.setList other .nil
    if (mem.lists i).empty then
      let mem := mem.setHead i (some first)
      let mem := mem.setTail i (some last)
      let mem := mem.setPrev first none
      let mem := mem.setNext last none
      some (mem.setSize i count)
    else
      match pos with
      | none =>
        let tail ← (mem.lists i).tail
        let mem := mem.setNext tail (some first)
        let mem := mem.setPrev first (some tail)
        let mem := mem.setNext last none
        let mem := mem.setTail i (some last)
        some (mem.setSize i ((mem.lists i).size + count))
      | some curr =>
        if some curr = (mem.lists i).head then
          let mem := mem.setNext last (some curr)
          let mem := mem.setPrev curr (some last)
          let mem := mem.setPrev first none
          let mem := mem.setHead i (some first)
          some (mem.setSize i ((mem.lists i).size + count))
        else
          let prev ← mem.links.prev curr
          let mem := mem.setNext prev (some first)
          let mem := mem.setPrev first (some prev)
          let mem := mem.setNext last (some curr)
          let mem := mem.setPrev curr (some last)
          some (mem.setSize i ((mem.lists i).size + count))

/-- One node of the other list before the position. -/
def spliceElement (i : ι) (pos : Option α) (other : ι) (it : Option α) (mem : Memory ι α) :
    Memory ι α :=
  match it with
  | none => mem
  | some node =>
    if i = other ∧ (pos = some node ∨ (pos.isSome ∧ pos = mem.links.next node)) then mem
    else
      let oPrev := mem.links.prev node
      let oNext := mem.links.next node
      let mem := unlink other oPrev oNext mem
      let mem := mem.setSize other ((mem.lists other).size - 1)
      let mem := mem.setPrev node none
      let mem := mem.setNext node none
      (insert i pos (some node) mem).1

def rangeEnd (other : ι) (last : Option α) (mem : Memory ι α) : Option α :=
  match last with
  | some last => mem.links.prev last
  | none => (mem.lists other).tail

/-- The unlinked range before the position. -/
def linkRange (i : ι) (pos : Option α) (firstNode lastNode : α) (count : ℕ) (mem : Memory ι α) :
    Option (Memory ι α) :=
  if (mem.lists i).empty then
    let mem := mem.setHead i (some firstNode)
    let mem := mem.setTail i (some lastNode)
    some (mem.setSize i count)
  else
    match pos with
    | none => do
        let tail ← (mem.lists i).tail
        let mem := mem.setNext tail (some firstNode)
        let mem := mem.setPrev firstNode (some tail)
        let mem := mem.setTail i (some lastNode)
        some (mem.setSize i ((mem.lists i).size + count))
    | some curr =>
      if some curr = (mem.lists i).head then
        let mem := mem.setNext lastNode (some curr)
        let mem := mem.setPrev curr (some lastNode)
        let mem := mem.setHead i (some firstNode)
        some (mem.setSize i ((mem.lists i).size + count))
      else do
        let prev ← mem.links.prev curr
        let mem := mem.setNext prev (some firstNode)
        let mem := mem.setPrev firstNode (some prev)
        let mem := mem.setNext lastNode (some curr)
        let mem := mem.setPrev curr (some lastNode)
        some (mem.setSize i ((mem.lists i).size + count))

/-- The range from `first` up to `last` of the other list before the position. -/
def spliceCount (i : ι) (pos : Option α) (other : ι) (first last : Option α) (count : ℕ)
    (mem : Memory ι α) : Option (Memory ι α) :=
  match first with
  | none => some mem
  | some firstNode =>
    if count = 0 ∨ (mem.lists other).empty then some mem
    else if some firstNode = (mem.lists other).head ∧ last = none ∧
        count = (mem.lists other).size then
      spliceList i pos other mem
    else
      match rangeEnd other last mem with
      | none => some mem
      | some lastNode =>
        let oPrev := mem.links.prev firstNode
        let oNext := mem.links.next lastNode
        let mem := unlink other oPrev oNext mem
        let mem := mem.setSize other ((mem.lists other).size - count)
        let mem := mem.setPrev firstNode none
        let mem := mem.setNext lastNode none
        linkRange i pos firstNode lastNode count mem

/-- The steps from one iterator to the other; past the end an iterator does not move. -/
def countRange (links : Links α) : ℕ → Option α → Option α → Option ℕ
  | 0, _, _ => none
  | fuel + 1, it, last =>
    if it = last then some 0
    else (countRange links fuel (it.bind links.next) last).map (· + 1)

def spliceRange (fuel : ℕ) (i : ι) (pos : Option α) (other : ι) (first last : Option α)
    (mem : Memory ι α) : Option (Memory ι α) :=
  if first = last ∨ first = none then some mem
  else if first = (mem.lists other).head ∧ last = none then spliceList i pos other mem
  else do
    let count ← countRange mem.links fuel first last
    spliceCount i pos other first last count mem

def clearNodes : ℕ → Option α → Links α → Option (Links α)
  | 0, _, _ => none
  | _ + 1, none, links => some links
  | fuel + 1, some curr, links =>
    clearNodes fuel (links.next curr) ((links.setPrev curr none).setNext curr none)

def clear (fuel : ℕ) (i : ι) (mem : Memory ι α) : Option (Memory ι α) := do
  let links ← clearNodes fuel (mem.lists i).head mem.links
  some ({ mem with links := links }.setList i .nil)

/-- An operation on one of the lists. -/
inductive Operation (ι α : Type)
  | push_back (i : ι) (node : Option α)
  | push_front (i : ι) (node : Option α)
  | insert (i : ι) (pos node : Option α)
  | erase (i : ι) (pos : Option α)
  | remove (i : ι) (node : Option α)
  | pop_front (i : ι)
  | pop_back (i : ι)
  | spliceList (i : ι) (pos : Option α) (other : ι)
  | spliceElement (i : ι) (pos : Option α) (other : ι) (it : Option α)
  | spliceCount (i : ι) (pos : Option α) (other : ι) (first last : Option α) (count : ℕ)
  | spliceRange (i : ι) (pos : Option α) (other : ι) (first last : Option α)
  | clear (i : ι)

def execute (fuel : ℕ) : Operation ι α → Memory ι α → Option (Memory ι α × Option α)
  | .push_back i node, mem => some (push_back i node mem, none)
  | .push_front i node, mem => some (push_front i node mem, none)
  | .insert i pos node, mem => some (insert i pos node mem)
  | .erase i pos, mem => some (erase i pos mem)
  | .remove i node, mem => some (remove i node mem, none)
  | .pop_front i, mem => some (pop_front i mem)
  | .pop_back i, mem => some (pop_back i mem)
  | .spliceList i pos other, mem => (spliceList i pos other mem).map (·, none)
  | .spliceElement i pos other it, mem => some (spliceElement i pos other it mem, none)
  | .spliceCount i pos other first last count, mem =>
    (spliceCount i pos other first last count mem).map (·, none)
  | .spliceRange i pos other first last, mem =>
    (spliceRange fuel i pos other first last mem).map (·, none)
  | .clear i, mem => (clear fuel i mem).map (·, none)

/-- The operations one behind the other, with the nodes that they return. -/
def executeAll (fuel : ℕ) :
    List (Operation ι α) → Memory ι α → Option (Memory ι α × List (Option α))
  | [], mem => some (mem, [])
  | operation :: operations, mem =>
    (execute fuel operation mem).bind fun s =>
      (executeAll fuel operations s.1).map fun t => (t.1, s.2 :: t.2)

end EzPacker.LinkedList
