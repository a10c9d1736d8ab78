import ConArtist.Foundation.CondVar
import ConArtist.Foundation.Run

/-!
# The channel

The model of `channel.cpp`: a queue of nodes from a fixed array, with a list of the
nodes in use and a list of the free ones. A pointer to a node is its place in
`m_nodes`, `none` for a null pointer, and data pointers are natural numbers. What a
function does between taking the mutex and releasing it is one step. A step that
follows a null pointer or leaves the array has no result.
-/

namespace ConArtist

/-- `node_t`. -/
structure Node where
  data : ℕ
  next : Option ℕ

/-- `channel_t`. -/
structure Channel where
  head : Option ℕ
  tail : Option ℕ
  freeList : Option ℕ
  nodes : List Node
  size : ℕ
  capacity : ℕ

namespace Channel

/-- The assignment `m_nodes[i].m_next = next`. -/
def setNext (nodes : List Node) (i : ℕ) (next : Option ℕ) : List Node :=
  nodes.modify i fun n => { n with next := next }

/-- `channel_init`, when the allocations succeed. The data of the nodes is not
initialised, and none is read before it is written. With capacity 0 the bound
`capacity - 1` wraps around and the loop leaves the array. -/
def init (capacity : ℕ) : Option Channel :=
  if capacity = 0 then none
  else
    let nodes := List.replicate capacity (⟨0, none⟩ : Node)
    let nodes := (List.range (capacity - 1)).foldl
      (fun nodes i => setNext nodes i (some (i + 1))) nodes
    some {
      head := none
      tail := none
      freeList := some 0
      nodes := setNext nodes (capacity - 1) none
      size := 0
      capacity := capacity }

/-- `channel_push` once there is room. -/
def put (ch : Channel) (data : ℕ) : Option Channel := do
  let n ← ch.freeList
  let node ← ch.nodes[n]?
  let nodes := ch.nodes.set n { data := data, next := none }
  match ch.tail with
  | none => some { ch with
      freeList := node.next
      nodes := nodes
      head := some n
      tail := some n
      size := ch.size + 1 }
  | some t =>
      let last ← nodes[t]?
      some { ch with
        freeList := node.next
        nodes := nodes.set t { last with next := some n }
        tail := some n
        size := ch.size + 1 }

/-- `channel_pop` and `channel_pop_nowait` once there is data. -/
def take (ch : Channel) : Option (ℕ × Channel) := do
  let n ← ch.head
  let node ← ch.nodes[n]?
  some (node.data, { ch with
    head := node.next
    tail := if node.next = none then none else ch.tail
    size := ch.size - 1
    nodes := ch.nodes.set n { node with next := ch.freeList }
    freeList := some n })

/-- The condition on which `channel_push` waits. -/
def full (ch : Channel) : Prop := ch.capacity ≤ ch.size

/-- The condition on which `channel_pop` waits. -/
def empty (ch : Channel) : Prop := ch.size = 0

instance (ch : Channel) : Decidable ch.full := inferInstanceAs (Decidable (ch.capacity ≤ ch.size))

instance (ch : Channel) : Decidable ch.empty := inferInstanceAs (Decidable (ch.size = 0))

/-- `channel_push`, from the test of its loop. There is no channel when the thread
waits. -/
def push (ch : Channel) (data : ℕ) : Option (Option Channel) :=
  if ch.full then some none else (ch.put data).map some

/-- `channel_pop`, from the test of its loop, with the data it returns. -/
def pop (ch : Channel) : Option (Option (ℕ × Channel)) :=
  if ch.empty then some none else ch.take.map some

/-- `channel_pop_nowait`, with the data it returns. -/
def popNowait (ch : Channel) : Option (Option ℕ × Channel) :=
  if ch.empty then some (none, ch) else ch.take.map fun out => (some out.1, out.2)

end Channel

end ConArtist
