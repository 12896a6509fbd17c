import Stacklets.Lib.Critical
import Stacklets.Messages.Memory
import Stacklets.Util.Numerals

/-!
# `Stacklets.Messages.Sections`: the instructions of `queue.c` under the lock

`Stacklets.Messages.Queue` has what `is_empty`, `dequeue` and `enqueue` do between taking and
giving back the lock of the queue, each as one function. Here they are the instructions that the
source has, one load or store at a time, and any number of threads interleaves them. `malloc` in
`enqueue` comes before the lock and `free` in `dequeue` comes before the unlock, so that a node
may be handed out again while its `dequeue` still has the lock.

`queue_linearizable` says that the lock makes this unobservable. The calls, in the order in which
they finish their sections, give the results that a queue gives which is used by one thread.
Whenever the lock is free the memory holds a list of allocated nodes with the messages of that
queue. The assertion in `queue_delete` fails only for a `dequeue` of an empty queue.

`runs_enqueue` and `runs_dequeue` are the refinement of `Messages.enqueue` and
`Messages.queueDelete`, which the rest of the development uses, by the instructions.
-/

set_option autoImplicit false

namespace Stacklets.Messages.Sections

open Function (update update_self update_of_ne update_comm)
open Lib Critical

/-- The calls, `enqueue` with the node that it got from `malloc`. -/
inductive Op (N M : Type*)
  | isEmpty
  | dequeue
  | enqueue (n : N) (msg : M)
deriving DecidableEq

/-- What the calls return. A message comes with the node that it was in. -/
inductive Result (N M : Type*)
  | empty (b : Bool)
  | message (n : N) (msg : M)
  /-- `dequeue` returns `NULL`. -/
  | null
  | stored
deriving DecidableEq

/-- The instructions between `spinlock_lock` and `spinlock_unlock`, with the values that the thread
has loaded. -/
inductive Instr (N M : Type*)
  /-- `is_empty`: `q->tail==NULL`. -/
  | readTail
  /-- `enqueue`: `n->msg = msg`. -/
  | storeMsg (n : N) (msg : M)
  /-- `if (q->tail == NULL)`. -/
  | testEmpty (n : N)
  /-- `q->head = q->tail = n`, from the right. -/
  | firstTail (n : N)
  | firstHead (n : N)
  /-- `n->prev = n->next = NULL`, from the right. -/
  | firstNext (n : N)
  | firstPrev (n : N)
  /-- `q->tail->next = n`. -/
  | loadTail (n : N)
  | linkNext (n t : N)
  /-- `n->prev = q->tail`. -/
  | loadPrev (n : N)
  | linkPrev (n : N) (t : Option N)
  /-- `n->next = NULL`. -/
  | endNext (n : N)
  /-- `q->tail = n`. -/
  | endTail (n : N)
  /-- `dequeue`: the argument of `queue_delete(q, q->head)`, and the assertion in it. -/
  | loadHead
  /-- `if (n->prev != NULL)`. -/
  | testPrev (n : N)
  /-- `n->prev->next = n->next`. -/
  | readPrev (n : N)
  | readNext (n p : N)
  | storeNext (n p : N) (x : Option N)
  /-- `else if (q->head == n)`. -/
  | testHead (n : N)
  /-- `q->head = n->next`. -/
  | headNext (n : N)
  | storeHead (n : N) (x : Option N)
  /-- `if (n->next != NULL)`. -/
  | testNext (n : N)
  /-- `n->next->prev = n->prev`. -/
  | nextOf (n : N)
  | prevOf (n x : N)
  | storePrev (n x : N) (p : Option N)
  /-- `else if (q->tail == n)`. -/
  | testTail (n : N)
  /-- `q->tail = n->prev`. -/
  | tailPrev (n : N)
  | storeTail (n : N) (p : Option N)
  /-- `msg = n->msg`. -/
  | readMsg (n : N)
  /-- `free(n)`. -/
  | free (n : N) (msg : M)

/-- The nodes and the queue. -/
structure Mem (N M : Type*) where
  heap : N → Node N M
  queue : Queue N

section
variable {T N M : Type*} [DecidableEq T] [DecidableEq N]

/-- The store `x->msg = v`. -/
def setMsg (heap : N → Node N M) (x : N) (v : M) : N → Node N M :=
  update heap x { heap x with msg := v }

/-- Allocate or free the node `x`. -/
def Mem.setLive (x : N) (b : Bool) (m : Mem N M) : Mem N M :=
  { m with heap := update m.heap x { m.heap x with live := b } }

/-- One instruction. `free` belongs to the allocator, see `step`. -/
def instrStep (m : Mem N M) : Instr N M → Mem N M × Next (Instr N M) (Result N M)
  | .readTail => (m, .done (.empty m.queue.tail.isNone))
  | .storeMsg n msg => ({ m with heap := setMsg m.heap n msg }, .goto (.testEmpty n))
  | .testEmpty n => (m, .goto (if m.queue.tail = none then .firstTail n else .loadTail n))
  | .firstTail n => ({ m with queue := { m.queue with tail := some n } }, .goto (.firstHead n))
  | .firstHead n => ({ m with queue := { m.queue with head := some n } }, .goto (.firstNext n))
  | .firstNext n => ({ m with heap := setNext m.heap n none }, .goto (.firstPrev n))
  | .firstPrev n => ({ m with heap := setPrev m.heap n none }, .done .stored)
  | .loadTail n =>
    match m.queue.tail with
    | some t => (m, .goto (.linkNext n t))
    | none => (m, .abort)
  | .linkNext n t => ({ m with heap := setNext m.heap t (some n) }, .goto (.loadPrev n))
  | .loadPrev n => (m, .goto (.linkPrev n m.queue.tail))
  | .linkPrev n t => ({ m with heap := setPrev m.heap n t }, .goto (.endNext n))
  | .endNext n => ({ m with heap := setNext m.heap n none }, .goto (.endTail n))
  | .endTail n => ({ m with queue := { m.queue with tail := some n } }, .done .stored)
  | .loadHead =>
    match m.queue.head with
    | some n => (m, .goto (.testPrev n))
    | none => (m, .abort)
  | .testPrev n => (m, .goto (if (m.heap n).prev ≠ none then .readPrev n else .testHead n))
  | .readPrev n =>
    match (m.heap n).prev with
    | some p => (m, .goto (.readNext n p))
    | none => (m, .abort)
  | .readNext n p => (m, .goto (.storeNext n p (m.heap n).next))
  | .storeNext n p x => ({ m with heap := setNext m.heap p x }, .goto (.testNext n))
  | .testHead n => (m, if m.queue.head = some n then .goto (.headNext n) else .done .null)
  | .headNext n => (m, .goto (.storeHead n (m.heap n).next))
  | .storeHead n x => ({ m with queue := { m.queue with head := x } }, .goto (.testNext n))
  | .testNext n => (m, .goto (if (m.heap n).next ≠ none then .nextOf n else .testTail n))
  | .nextOf n =>
    match (m.heap n).next with
    | some x => (m, .goto (.prevOf n x))
    | none => (m, .abort)
  | .prevOf n x => (m, .goto (.storePrev n x (m.heap n).prev))
  | .storePrev n x p => ({ m with heap := setPrev m.heap x p }, .goto (.readMsg n))
  | .testTail n => (m, if m.queue.tail = some n then .goto (.tailPrev n) else .done .null)
  | .tailPrev n => (m, .goto (.storeTail n (m.heap n).prev))
  | .storeTail n p => ({ m with queue := { m.queue with tail := p } }, .goto (.readMsg n))
  | .readMsg n => (m, .goto (.free n (m.heap n).msg))
  | .free n msg => (m, .done (.message n msg))

/-- The sections of `queue.c`. -/
def code : Code (Op N M) (Mem N M) (Instr N M) (Result N M) where
  start
    | .isEmpty => .readTail
    | .dequeue => .loadHead
    | .enqueue n msg => .storeMsg n msg
  step := instrStep

/-- The threads, the lock, the nodes and the queue. -/
abbrev System (T N M : Type*) := Critical.State T (Op N M) (Mem N M) (Instr N M) (Result N M)

/-- What happens next. -/
inductive Act (T N M : Type*)
  | isEmpty (t : T)
  | dequeue (t : T)
  /-- `enqueue(q, msg)`, and `malloc` returns `n`. -/
  | enqueue (t : T) (msg : M) (n : N)
  /-- The next step of a call that has begun. -/
  | move (t : T)

/-- The node that the next step of a thread frees. -/
def frees : Local (Op N M) (Instr N M) → Option N
  | .inside _ (.free n _) => some n
  | _ => none

/-- The allocator after `free`. -/
def Mem.free (m : Mem N M) : Option N → Mem N M
  | some n => m.setLive n false
  | none => m

/-- One step. `malloc` returns any node that is not allocated. -/
def step (s : System T N M) : Act T N M → Option (System T N M)
  | .isEmpty t => call s t .isEmpty
  | .dequeue t => call s t .dequeue
  | .enqueue t msg n =>
    if (s.memory.heap n).live then none
    else call { s with memory := s.memory.setLive n true } t (.enqueue n msg)
  | .move t =>
    (Critical.move code s t).map fun s' => { s' with memory := s'.memory.free (frees (s.locals t)) }

/-- The state behind `init_queue`. -/
def initial (T : Type*) (contents : N → Node N M) : System T N M :=
  Critical.initial ⟨contents, Queue.empty⟩

/-! ### A section alone -/

variable {m m' : Mem N M} {n x : N} {msg : M} {b : Bool} {o : Option (Mem N M × Result N M)}

/-- `isEmpty` reads the tail. -/
theorem runs_isEmpty : code.Runs m (code.start .isEmpty) o ↔
    o = some (m, .empty m.queue.tail.isNone) :=
  Code.runs_iff_of_exec (k := 1) rfl

/-- The stores of an `enqueue` to an empty queue, as one write. -/
theorem first_stores (heap : N → Node N M) :
    setPrev (setNext (setMsg heap n msg) n none) n none =
      update heap n { heap n with msg, prev := none, next := none } := by
  simp [setPrev, setNext, setMsg]

/-- The stores of an `enqueue` behind the tail `t`, as two writes. -/
theorem further_stores (heap : N → Node N M) (t : N) :
    setNext (setPrev (setNext (setMsg heap n msg) t (some n)) n (some t)) n none =
      update (setNext heap t (some n)) n
        { heap n with msg, prev := some t, next := none } := by
  funext y
  by_cases hn : y = n
  · subst hn
    by_cases ht : y = t <;> simp [setPrev, setNext, setMsg, ht]
  · by_cases ht : y = t
    · subst ht
      simp [setPrev, setNext, setMsg, hn]
    · simp [setPrev, setNext, setMsg, hn, ht]

/-- The instructions of `enqueue` do what the function `enqueue` does. -/
theorem runs_enqueue : code.Runs m (code.start (.enqueue n msg)) o ↔
    o = some (⟨(enqueue m.heap m.queue n msg).1, (enqueue m.heap m.queue n msg).2⟩, .stored) := by
  refine Code.runs_iff_of_exec (k := 8) ?_
  obtain ⟨heap, head, tail⟩ := m
  cases tail with
  | none => simp [Code.exec, code, instrStep, enqueue, first_stores]
  | some t => simp [Code.exec, code, instrStep, enqueue, further_stores]

/-- What `dequeue` makes of the result of `queue_delete`. -/
def dequeueOf : Option (Option N × (N → Node N M) × Queue N) → Option (Mem N M × Result N M)
  | none => none
  | some (none, heap, q) => some (⟨heap, q⟩, .null)
  | some (some n, heap, q) => some (⟨heap, q⟩, .message n (heap n).msg)

/-- The instructions of `dequeue` do what `queue_delete` does to the head of the queue. -/
theorem runs_dequeue : code.Runs m (code.start .dequeue) o ↔
    o = dequeueOf (queueDelete m.heap m.queue m.queue.head) := by
  refine Code.runs_iff_of_exec (k := 12) ?_
  obtain ⟨heap, head, tail⟩ := m
  cases head with
  | none => rfl
  | some n =>
    -- the four ways through `queue_delete`, by the two links of the head
    cases hp : (heap n).prev with
    | none =>
      cases hx : (heap n).next with
      | none =>
        by_cases ht : tail = some n <;>
          simp [Code.exec, code, instrStep, queueDelete, unlinkPrev, unlinkNext, dequeueOf,
            hp, hx, ht]
      | some x =>
        simp [Code.exec, code, instrStep, queueDelete, unlinkPrev, unlinkNext, dequeueOf,
          hp, hx]
    | some p =>
      -- `n->next` is read again behind the store, which changes it if `p` is `n`
      cases hx : (setNext heap p (heap n).next n).next with
      | none =>
        by_cases ht : tail = some n <;>
          simp [Code.exec, code, instrStep, queueDelete, unlinkPrev, unlinkNext, dequeueOf,
            hp, hx, ht]
      | some x =>
        simp [Code.exec, code, instrStep, queueDelete, unlinkPrev, unlinkNext, dequeueOf,
          hp, hx]

/-! ### The allocator beside the sections -/

/-- `malloc` and `free` touch neither the message nor the links. -/
theorem setLive_fields (m : Mem N M) (x y : N) (b : Bool) :
    ((m.setLive x b).heap y).msg = (m.heap y).msg ∧
      ((m.setLive x b).heap y).prev = (m.heap y).prev ∧
      ((m.setLive x b).heap y).next = (m.heap y).next := by
  unfold Mem.setLive
  by_cases hy : y = x
  · subst hy
    simp
  · simp [hy]

/-- A store to another field of a node. -/
theorem setLive_store (m : Mem N M) (x y : N) (b : Bool) (f : Node N M → Node N M)
    (hf : ∀ nd, f { nd with live := b } = { f nd with live := b }) :
    (⟨update (m.setLive x b).heap y (f ((m.setLive x b).heap y)), m.queue⟩ : Mem N M) =
      Mem.setLive x b ⟨update m.heap y (f (m.heap y)), m.queue⟩ := by
  unfold Mem.setLive
  congr 1
  by_cases hy : y = x
  · subst hy
    simp [hf]
  · dsimp only
    rw [update_of_ne hy, update_comm hy, update_of_ne (Ne.symm hy)]

/-- `malloc` and `free` commute with the instructions of the sections. -/
theorem beside_setLive (x : N) (b : Bool) : (code (N := N) (M := M)).Beside (Mem.setLive x b) := by
  intro m l
  have hfields := setLive_fields m x
  cases l
  case storeMsg n msg =>
    exact Prod.ext (setLive_store m x n b (fun nd => { nd with msg }) fun _ => rfl) rfl
  case firstNext n | linkNext t n | endNext n | storeNext n p v =>
    exact Prod.ext (setLive_store m x _ b (fun nd => { nd with next := _ }) fun _ => rfl) rfl
  case firstPrev n | linkPrev n t | storePrev n y p =>
    exact Prod.ext (setLive_store m x _ b (fun nd => { nd with prev := _ }) fun _ => rfl) rfl
  case firstTail | firstHead | endTail | storeHead | storeTail => rfl
  -- the others read what the allocator does not write
  case loadTail | loadHead | readPrev | nextOf =>
    simp only [code, instrStep, hfields, show (m.setLive x b).queue = m.queue from rfl]
    split <;> rfl
  all_goals simp only [code, instrStep, hfields, show (m.setLive x b).queue = m.queue from rfl]

/-- No instruction of a section allocates or frees. -/
theorem live_of_instrStep {l : Instr N M} {x : Next (Instr N M) (Result N M)}
    (h : instrStep m l = (m', x)) (y : N) : (m'.heap y).live = (m.heap y).live := by
  have hm : m' = (instrStep m l).1 := by rw [h]
  rw [hm]
  have hmsg : ∀ v z, (setMsg m.heap z v y).live = (m.heap y).live := by
    intro v z
    unfold setMsg
    by_cases hy : y = z
    · subst hy
      simp
    · simp [hy]
  cases l
  case storeMsg n msg => exact hmsg msg n
  case firstNext | linkNext | endNext | storeNext => exact (setNext_fields _ _ _ _).2.2.2
  case firstPrev | linkPrev | storePrev => exact (setPrev_fields _ _ _ _).2.2.2
  case loadTail | loadHead | readPrev | nextOf =>
    simp only [instrStep]
    split <;> rfl
  all_goals rfl

/-- The node of a message. -/
def Result.node : Result N M → Option N
  | .message n _ => some n
  | _ => none

variable {l l' : Instr N M} {r : Result N M} {op : Op N M}

omit [DecidableEq T] in
/-- A section frees the node of its result. -/
theorem frees_of_done (h : instrStep m l = (m', .done r)) : frees (.inside op l) = r.node := by
  cases l <;> simp only [instrStep] at h
  case free n msg =>
    cases h
    rfl
  all_goals try split at h
  all_goals cases h
  all_goals rfl

omit [DecidableEq T] in
/-- Only the last instruction of a section frees. -/
theorem frees_of_goto (h : instrStep m l = (m', .goto l')) : frees (.inside op l) = none := by
  cases l
  case free n msg => cases h
  all_goals rfl

omit [DecidableEq T] in
/-- A section that aborts frees nothing. -/
theorem frees_of_abort (h : instrStep m l = (m', .abort)) : frees (.inside op l) = none := by
  cases l
  case free n msg => cases h
  all_goals rfl

/-! ### The queue that the calls see -/

/-- A call on a queue that one thread uses. -/
inductive Serves : Op N M → List M → Result N M → List M → Prop
  | isEmpty (q : List M) : Serves .isEmpty q (.empty q.isEmpty) q
  | enqueue (n : N) (msg : M) (q : List M) : Serves (.enqueue n msg) q .stored (q ++ [msg])
  | dequeue (n : N) (msg : M) (q : List M) : Serves .dequeue (msg :: q) (.message n msg) q

/-- The calls one after the other, with their results, and what the queue holds after them. -/
inductive Sequential : List (Op N M × Result N M) → List M → Prop
  | nil : Sequential [] []
  | snoc {cs : List (Op N M × Result N M)} {q q' : List M} {op : Op N M} {r : Result N M}
      (h : Sequential cs q) (hlast : Serves op q r q') : Sequential (cs ++ [(op, r)]) q'

/-! ### The nodes of the queue and of the threads -/

/-- The queue next to the threads, which have none. -/
def queues (q : Queue N) : Option T → Queue N
  | none => q
  | some _ => .empty

/-- The nodes in the queue. -/
def inQueue (nodes : List N) : Option T → List N
  | none => nodes
  | some _ => []

/-- The node that a thread is about to link. -/
def newNode : Local (Op N M) (Instr N M) → Option N
  | .wants (.enqueue n _) | .inside (.enqueue n _) _ => some n
  | _ => none

/-- The nodes that the threads are about to link. -/
def newNodes (locals : T → Local (Op N M) (Instr N M)) : Option T → Option N
  | none => none
  | some t => newNode (locals t)

omit [DecidableEq N] in
/-- There is one queue, with the key `none`. -/
theorem update_queues (q q' : Queue N) :
    update (queues q : Option T → Queue N) none q' = queues q' := by
  funext c
  cases c <;> simp [queues]

omit [DecidableEq N] in
/-- There is one list of nodes, with the key `none`. -/
theorem update_inQueue (nodes nodes' : List N) :
    update (inQueue nodes : Option T → List N) none nodes' = inQueue nodes' := by
  funext c
  cases c <;> simp [inQueue]

omit [DecidableEq N] in
/-- Only the allocation of the thread that moves changes. -/
theorem newNodes_update (locals : T → Local (Op N M) (Instr N M)) (t : T)
    (k : Local (Op N M) (Instr N M)) :
    newNodes (update locals t k) =
      update (newNodes locals) (some t) (newNode k) := by
  funext c
  cases c with
  | none => rfl
  | some u =>
    by_cases hu : u = t
    · subst hu
      simp [newNodes]
    · simp [newNodes, hu]

/-- The settled memory `m` has the nodes of the queue and of the threads in order, and the queue
holds what the calls have left in it. -/
structure QueueInv (s : System T N M) (m : Mem N M) (nodes : List N) : Prop where
  sections : Critical.Inv code s m
  memory : MemoryOk m.heap (queues m.queue) (newNodes s.locals) (inQueue nodes)
  /-- A section that has begun has not touched the allocator. -/
  allocated : ∀ y, (s.memory.heap y).live = (m.heap y).live
  sequential : Sequential s.history (messages m.heap nodes)
  aborted : s.aborted = true → nodes = []

variable {s s' : System T N M} {nodes : List N} {t : T}

/-- The queue is empty and nobody is inside. -/
theorem inv_initial (contents : N → Node N M) :
    QueueInv (initial T contents) ⟨contents, Queue.empty⟩ [] where
  sections := Critical.inv_initial
  memory := by
    have h := memoryOk_initial (C := Option T) contents
    have hq : (fun _ : Option T => Queue.empty (N := N)) = queues Queue.empty := by
      funext c
      cases c <;> rfl
    have hl : (fun _ : Option T => ([] : List N)) = inQueue [] := by
      funext c
      cases c <;> rfl
    have hn : (fun _ : Option T => (none : Option N)) =
        newNodes (initial T contents).locals := by
      funext c
      cases c <;> rfl
    rw [hq, hl, hn] at h
    exact h
  allocated _ := rfl
  sequential := .nil
  aborted h := by cases h

/-- The memory that the sections see spells the list of nodes. -/
theorem QueueInv.represents (h : QueueInv s m nodes) : m.queue.Represents m.heap nodes :=
  h.memory.represents none

omit [DecidableEq N] in
/-- A thread goes on, and has the same node as before, or none. -/
theorem memoryOk_goto {heap : N → Node N M} {q : Queue N} {k : Local (Op N M) (Instr N M)}
    (h : MemoryOk heap (queues q) (newNodes s.locals) (inQueue nodes))
    (hk : newNode k = newNode (s.locals t) ∨ newNode k = none) :
    MemoryOk heap (queues q) (newNodes (update s.locals t k)) (inQueue nodes) := by
  refine h.mono fun c y hy => ?_
  rw [newNodes_update] at hy
  by_cases hc : c = some t
  · subst hc
    rw [update_self] at hy
    rcases hk with hk | hk <;> rw [hk] at hy
    · exact hy
    · cases hy
  · rwa [update_of_ne hc] at hy

/-- A call of `is_empty` or `dequeue`. -/
theorem QueueInv.call (h : QueueInv s m nodes) (hop : newNode (.wants op) = none)
    (hs : call s t op = some s') : QueueInv s' m nodes := by
  obtain ⟨hout, rfl, hsections⟩ := h.sections.call hs
  exact ⟨hsections, memoryOk_goto h.memory (.inr hop), h.allocated, h.sequential, h.aborted⟩

/-- `malloc` and the call of `enqueue`. -/
theorem QueueInv.enqueue (h : QueueInv s m nodes) (hn : (s.memory.heap n).live = false)
    (hs : Critical.call { s with memory := s.memory.setLive n true } t (.enqueue n msg) =
      some s') : QueueInv s' (m.setLive n true) nodes := by
  have hbeside := h.sections.beside (beside_setLive n true)
  obtain ⟨hout, rfl, hsections⟩ := hbeside.call hs
  refine ⟨hsections, ?_, fun y => ?_, ?_, h.aborted⟩
  · -- a node that the settled memory has free is in no queue and in nobody's hands
    have hmalloc := h.memory.malloc (c := some t) ((h.allocated n).symm.trans hn)
    show MemoryOk _ _ (newNodes (update s.locals t _)) _
    rw [newNodes_update]
    exact hmalloc
  · show (update s.memory.heap n _ y).live = (update m.heap n _ y).live
    by_cases hy : y = n
    · rw [hy, update_self, update_self]
    · rw [update_of_ne hy, update_of_ne hy]
      exact h.allocated y
  · show Sequential s.history (messages (update m.heap n _) nodes)
    rw [messages_malloc]
    exact h.sequential

omit [DecidableEq N] in
/-- A queue without a tail is empty. -/
theorem isNone_tail {q : Queue N} {heap : N → Node N M} (h : q.Represents heap nodes) :
    q.tail.isNone = (messages heap nodes).isEmpty := by
  have htail : q.tail = nodes.getLast? := h.back_eq
  rw [htail, messages, List.isEmpty_map]
  cases nodes with
  | nil => rfl
  | cons n l => simp [List.getLast?_cons]

/-- The last instruction of a section: the call takes effect, as if it were alone. -/
theorem QueueInv.ends (h : QueueInv s m nodes) (hrun : s.aborted = false)
    (hl : s.locals t = .inside op l) (hstep : instrStep s.memory l = (m', .done r))
    (hruns : code.Runs m (code.start op) (some (m', r)))
    (hs' : s' = { s with memory := m', history := s.history ++ [(op, r)] }.goto t .leaving)
    (hsections : Critical.Inv code s' m') :
    ∃ nodes', QueueInv { s' with memory := m'.free (frees (s.locals t)) }
      (m'.free (frees (s.locals t))) nodes' := by
  subst hs'
  have haborted : ∀ l : List N, s.aborted = true → l = [] := by simp [hrun]
  rw [hl, frees_of_done hstep]
  cases op with
  | isEmpty =>
    cases runs_isEmpty.mp hruns
    refine ⟨nodes, hsections, memoryOk_goto h.memory (.inr rfl), fun _ => rfl,
      h.sequential.snoc ?_, h.aborted⟩
    rw [isNone_tail h.represents]
    exact .isEmpty _
  | enqueue n msg =>
    cases runs_enqueue.mp hruns
    have hnew : newNodes s.locals (some t) = some n := by
      show newNode (s.locals t) = some n
      rw [hl]
      rfl
    -- the node of the caller is not linked yet
    have hfresh : n ∉ nodes := h.memory.newFresh _ n hnew none
    have hleave : newNodes (update s.locals t .leaving) =
        update (newNodes s.locals) (some t) none := newNodes_update ..
    have hmem : MemoryOk (Messages.enqueue m.heap m.queue n msg).1 _ _ _ :=
      h.memory.enqueue (t := none) hnew
    rw [update_inQueue, ← hleave, update_queues] at hmem
    refine ⟨nodes ++ [n], hsections, hmem, fun _ => rfl, h.sequential.snoc ?_, haborted _⟩
    show Serves _ _ _ (messages (Messages.enqueue m.heap m.queue n msg).1 (nodes ++ [n]))
    rw [messages_enqueue_append hfresh]
    exact .enqueue n msg _
  | dequeue =>
    have ho := runs_dequeue.mp hruns
    have hrep := h.represents
    cases nodes with
    | nil =>
      -- the assertion fails, so there is no last instruction
      have hhead : m.queue.head = none := hrep.front_eq
      rw [hhead] at ho
      cases ho
    | cons n rest =>
      rw [queueDelete_eq hrep] at ho
      cases ho
      have hnodup : n ∉ rest := (List.nodup_cons.mp hrep.nodup).1
      -- `free` comes with the last instruction, and is beside the other sections
      have hmem := h.memory.dequeue (c := none) rfl (represents_dequeue hrep)
      rw [update_queues, update_inQueue] at hmem
      refine ⟨rest, hsections.beside (beside_setLive n false),
        memoryOk_goto hmem (.inr rfl), fun _ => rfl, h.sequential.snoc ?_, haborted _⟩
      show Serves _ (_ :: messages m.heap rest) (.message n _)
        (messages (dequeued m.heap n) rest)
      rw [messages_dequeued hnodup, unlinked_msg]
      exact .dequeue n _ _

/-- The assertion in `queue_delete` fails only for an empty queue. -/
theorem QueueInv.eq_nil_of_abort (h : QueueInv s m nodes)
    (hruns : code.Runs m (code.start op) none) : nodes = [] := by
  cases op with
  | isEmpty => cases runs_isEmpty.mp hruns
  | enqueue n msg => cases runs_enqueue.mp hruns
  | dequeue =>
    have ho := runs_dequeue.mp hruns
    cases nodes with
    | nil => rfl
    | cons n rest =>
      rw [queueDelete_eq h.represents] at ho
      cases ho

/-- One step of a call that has begun. -/
theorem QueueInv.move (h : QueueInv s m nodes) (hs : Critical.move code s t = some s') :
    ∃ m' nodes', QueueInv { s' with memory := s'.memory.free (frees (s.locals t)) } m' nodes' := by
  have hrun := aborted_eq_false hs
  -- what the move is, seen from the settled memory
  obtain ⟨m', hmoves, hsections⟩ := exists_moves h.sections hs
  cases hmoves with
  | spins hl =>
    rw [hl]
    exact ⟨m, nodes, h⟩
  | enters hl =>
    rw [hl]
    refine ⟨m, nodes, hsections, memoryOk_goto h.memory (.inl ?_), h.allocated, h.sequential,
      h.aborted⟩
    rw [hl]
    rename_i op
    cases op <;> rfl
  | goes hl hstep =>
    rw [hl, frees_of_goto hstep]
    refine ⟨m, nodes, hsections, memoryOk_goto h.memory (.inl ?_), fun y => ?_, h.sequential,
      h.aborted⟩
    · rw [hl]
      rename_i op _ _ _
      cases op <;> rfl
    · exact (live_of_instrStep hstep y).trans (h.allocated y)
  | ends hl hstep hruns =>
    obtain ⟨nodes', h'⟩ := h.ends hrun hl hstep hruns rfl hsections
    exact ⟨_, nodes', h'⟩
  | aborts hl hstep hruns =>
    rw [hl, frees_of_abort hstep]
    exact ⟨m, nodes, hsections, h.memory,
      fun y => (live_of_instrStep hstep y).trans (h.allocated y), h.sequential,
      fun _ => h.eq_nil_of_abort hruns⟩
  | leaves hl =>
    rw [hl]
    exact ⟨m, nodes, hsections, memoryOk_goto h.memory (.inr rfl), h.allocated, h.sequential,
      h.aborted⟩

/-- Every step of a thread keeps the invariant, for some memory and list. -/
theorem inv_step {a : Act T N M} (h : QueueInv s m nodes) (hs : step s a = some s') :
    ∃ m' nodes', QueueInv s' m' nodes' := by
  cases a with
  | isEmpty t => exact ⟨m, nodes, h.call rfl hs⟩
  | dequeue t => exact ⟨m, nodes, h.call rfl hs⟩
  | enqueue t msg n =>
    simp only [step] at hs
    split at hs
    case isTrue => cases hs
    case isFalse hn => exact ⟨_, nodes, h.enqueue (by simpa using hn) hs⟩
  | move t =>
    obtain ⟨s₁, hs₁, rfl⟩ := Option.map_eq_some_iff.mp hs
    exact h.move hs₁

/-- In every interleaving of the instructions of any number of calls: the calls whose sections have
ended, in that order, return what they would return from a queue that one thread uses. When the
lock is free the nodes in memory are a list of allocated nodes that holds the messages left in
that queue. The program is stopped only by a `dequeue` that finds it empty. -/
theorem queue_linearizable {contents : N → Node N M} {as : List (Act T N M)}
    (hrun : run step (initial T contents) as = some s) :
    ∃ q, Sequential s.history q ∧
      (s.locked = false → ∃ nodes, s.memory.queue.Represents s.memory.heap nodes ∧
        messages s.memory.heap nodes = q ∧ ∀ y ∈ nodes, (s.memory.heap y).live = true) ∧
      (s.aborted = true → q = []) := by
  have hinv : ∃ m nodes, QueueInv s m nodes :=
    run_induction (I := fun s => ∃ m nodes, QueueInv s m nodes)
      (fun _ _ _ ⟨_, _, h⟩ hs => inv_step h hs) as _ s ⟨_, _, inv_initial contents⟩ hrun
  obtain ⟨m, nodes, h⟩ := hinv
  refine ⟨messages m.heap nodes, h.sequential, fun hfree => ?_, fun ha => ?_⟩
  · rw [h.sections.memory_eq hfree]
    exact ⟨nodes, h.represents, rfl, h.memory.live none⟩
  · rw [h.aborted ha]
    rfl

end

/-- Two threads enqueue at the same time, and the first one dequeues while the second one is still
in its section. -/
def overlapping : List (Act (Fin 2) (Fin 2) Nat) :=
  [.enqueue 0 7 0, .enqueue 1 8 1] ++ [0, 1, 0, 0, 1, 0, 0, 1, 0, 0, 0].map .move ++
    .dequeue 0 :: [1, 0, 1, 1, 1, 1, 1, 0, 1, 1, 1, 1].map .move ++
    (List.replicate 13 0).map .move

/-- The overlapping run: both messages are stored, the first one is taken. -/
theorem queue_linearizable_overlapping :
    ∃ s, run step (initial (Fin 2) fun _ => ⟨0, none, none, false⟩) overlapping = some s ∧
      s.history = [(.enqueue 0 7, .stored), (.enqueue 1 8, .stored), (.dequeue, .message 0 7)] ∧
      ∃ q, Sequential s.history q := by
  have h : (run step (initial (Fin 2) fun _ => ⟨0, none, none, false⟩) overlapping).map
      (·.history) =
        some [(.enqueue 0 7, .stored), (.enqueue 1 8, .stored), (.dequeue, .message 0 7)] := by
    decide +kernel
  obtain ⟨s, hrun, hs⟩ := Option.map_eq_some_iff.mp h
  obtain ⟨q, hq, -⟩ := queue_linearizable hrun
  exact ⟨s, hrun, hs, q, hq⟩

end Stacklets.Messages.Sections
