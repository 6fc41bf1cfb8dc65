import Mathlib.Data.Fintype.Basic
import ForgeOS.Lib.Linearizable
import ForgeOS.Lib.Path

/-!
# The queue of `queue.c`, one memory access at a time

A queue is a chain of nodes that starts with a node whose value has been taken already.  No lock is
taken.  Every access to shared memory is a step of its own, and the program counter `Pc` of an agent
has the values of the local variables.

The memory of a node that has been freed can still be accessed by an agent that has kept its
address.  So memory is a total function, and `allocated` says which addresses `malloc` has handed
out; the allocator may write to the others at any time (`Label.scribble`).  `malloc` is taken to
succeed.
-/

namespace ForgeOS

open Option Function

structure Queue.Node (A V : Type) where
  p : V
  next : A
  deriving DecidableEq

/-- The points of `queue_push` and `queue_pop` between two accesses to memory.  The names say what
is done next. -/
inductive Queue.Pc (A V : Type) where
  | idle
  /-- `n = malloc(sizeof(struct node))`. -/
  | pushMalloc (data : V)
  /-- `n->p = data`. -/
  | pushSetP (data : V) (n : A)
  /-- `n->next = 0`. -/
  | pushSetNext (data : V) (n : A)
  /-- `tail = q->tail`. -/
  | pushReadTail (data : V) (n : A)
  /-- `next = tail->next`. -/
  | pushReadNext (data : V) (n tail : A)
  /-- `if(tail == q->tail)`. -/
  | pushCheck (data : V) (n tail next : A)
  /-- `atomic_bool_compare_and_swap(&tail->next, next, n)`, where `next` is null. -/
  | pushLink (data : V) (n tail : A)
  /-- `atomic_val_compare_and_swap(&q->tail, tail, next)`, where `next` is not null. -/
  | pushHelp (data : V) (n tail next : A)
  /-- `atomic_val_compare_and_swap(&q->tail, tail, n)`. -/
  | pushSwing (n tail : A)
  /-- `atomic_inc(q->len)`. -/
  | pushInc
  | pushRet
  /-- `head = q->head`. -/
  | popReadHead
  /-- `tail = q->tail`. -/
  | popReadTail (head : A)
  /-- `next = head->next`. -/
  | popReadNext (head tail : A)
  /-- `if(head == q->head)`. -/
  | popCheck (head tail next : A)
  /-- `atomic_val_compare_and_swap(&q->tail, tail, next)`, where `tail` is `head`. -/
  | popHelp (head next : A)
  /-- `ret = next->p`. -/
  | popReadP (head next : A)
  /-- `atomic_bool_compare_and_swap(&q->head, head, next)`. -/
  | popTake (head next : A) (ret : V)
  /-- `free(head)`. -/
  | popFree (head : A) (ret : V)
  /-- `atomic_dec(q->len)`. -/
  | popDec (ret : V)
  /-- `return ret`. -/
  | popRet (ret : V)
  /-- `return 0`. -/
  | popEmpty
  deriving DecidableEq

structure Queue (I A V : Type) where
  mem : A → Queue.Node A V
  allocated : A → Bool
  head : A
  tail : A
  base : A
  len : UInt32
  pc : I → Queue.Pc A V

namespace Queue

variable {I A V : Type} [DecidableEq I] [Zero A] [DecidableEq A]

/-- `create_queue`, its base node being at `base` and holding `magic`. -/
def createQueue (mem : A → Node A V) (allocated : A → Bool) (base : A) (magic : V) :
    Queue I A V where
  mem := update mem base ⟨magic, 0⟩
  allocated := update allocated base true
  head := base
  tail := base
  base := base
  len := 0
  pc := fun _ ↦ .idle

def goto (q : Queue I A V) (i : I) (pc : Pc A V) : Queue I A V :=
  { q with pc := update q.pc i pc }

omit [Zero A] [DecidableEq A] in
theorem goto_pc (q : Queue I A V) (i : I) (pc : Pc A V) : (q.goto i pc).pc i = pc := by
  simp [goto]

def write (q : Queue I A V) (a : A) (nd : Node A V) : Queue I A V :=
  { q with mem := update q.mem a nd }

def casTail (q : Queue I A V) (old new : A) : Queue I A V :=
  if q.tail = old then { q with tail := new } else q

inductive Op (V : Type) where
  | push (data : V)
  | pop
  deriving DecidableEq

/-- The result of an operation.  The null pointer that a pop of an empty queue returns is kept apart
from a null pointer that was pushed. -/
inductive Ret (V : Type) where
  | pushed
  | popped (r : Option V)
  deriving DecidableEq

def Op.entry : Op V → Pc A V
  | .push data => .pushMalloc data
  | .pop => .popReadHead

/-- The next access of agent `i`, except for `malloc`. -/
def access (q : Queue I A V) (i : I) : Option (Queue I A V) :=
  match q.pc i with
  | .idle => none
  | .pushMalloc _ => none
  | .pushSetP data n => some ((q.write n { q.mem n with p := data }).goto i (.pushSetNext data n))
  | .pushSetNext data n => some ((q.write n { q.mem n with next := 0 }).goto i (.pushReadTail data n))
  | .pushReadTail data n => some (q.goto i (.pushReadNext data n q.tail))
  | .pushReadNext data n tail => some (q.goto i (.pushCheck data n tail (q.mem tail).next))
  | .pushCheck data n tail next =>
    if tail = q.tail then
      if next = 0 then some (q.goto i (.pushLink data n tail))
      else some (q.goto i (.pushHelp data n tail next))
    else some (q.goto i (.pushReadTail data n))
  | .pushLink data n tail =>
    if (q.mem tail).next = 0 then
      some ((q.write tail { q.mem tail with next := n }).goto i (.pushSwing n tail))
    else some (q.goto i (.pushReadTail data n))
  | .pushHelp data n tail next => some ((q.casTail tail next).goto i (.pushReadTail data n))
  | .pushSwing n tail => some ((q.casTail tail n).goto i .pushInc)
  | .pushInc => some ({ q with len := q.len + 1 }.goto i .pushRet)
  | .pushRet => some (q.goto i .idle)
  | .popReadHead => some (q.goto i (.popReadTail q.head))
  | .popReadTail head => some (q.goto i (.popReadNext head q.tail))
  | .popReadNext head tail => some (q.goto i (.popCheck head tail (q.mem head).next))
  | .popCheck head tail next =>
    if head = q.head then
      if head = tail then
        if next = 0 then some (q.goto i .popEmpty) else some (q.goto i (.popHelp head next))
      else some (q.goto i (.popReadP head next))
    else some (q.goto i .popReadHead)
  | .popHelp head next => some ((q.casTail head next).goto i .popReadHead)
  | .popReadP head next => some (q.goto i (.popTake head next (q.mem next).p))
  | .popTake head next ret =>
    if q.head = head then some ({ q with head := next }.goto i (.popFree head ret))
    else some (q.goto i .popReadHead)
  | .popFree head ret =>
    some ({ q with allocated := update q.allocated head false }.goto i (.popDec ret))
  | .popDec ret => some ({ q with len := q.len - 1 }.goto i (.popRet ret))
  | .popRet _ => some (q.goto i .idle)
  | .popEmpty => some (q.goto i .idle)

inductive Label (I A V : Type) where
  | call (i : I) (op : Op V)
  /-- `malloc` returns the node `n`, which holds `junk`, to agent `i`. -/
  | malloc (i : I) (n : A) (junk : Node A V)
  | access (i : I)
  /-- The allocator writes to a node that is not in use. -/
  | scribble (a : A) (junk : Node A V)

def step (q : Queue I A V) : Label I A V → Option (Queue I A V)
  | .call i op =>
    match q.pc i with
    | .idle => some (q.goto i op.entry)
    | _ => none
  | .malloc i n junk =>
    match q.pc i with
    | .pushMalloc data =>
      if n ≠ 0 ∧ q.allocated n = false then
        some ({ q.write n junk with allocated := update q.allocated n true }.goto i
          (.pushSetP data n))
      else none
    | _ => none
  | .access i => q.access i
  | .scribble a junk => if q.allocated a = false then some (q.write a junk) else none

section Steps

variable {q q' : Queue I A V} {i : I}

theorem step_call_eq_some {op : Op V} (h : q.step (.call i op) = some q') :
    q.pc i = .idle ∧ q' = q.goto i op.entry := by
  simp only [step] at h
  split at h
  · next hpc => exact ⟨hpc, (some.inj h).symm⟩
  · cases h

theorem step_malloc_eq_some {n : A} {junk : Node A V} (h : q.step (.malloc i n junk) = some q') :
    ∃ data, q.pc i = .pushMalloc data ∧ n ≠ 0 ∧ q.allocated n = false ∧
      q' = { q.write n junk with allocated := update q.allocated n true }.goto i
        (.pushSetP data n) := by
  simp only [step] at h
  split at h
  · next data hpc =>
    simp only [ite_none_right_eq_some, some.injEq] at h
    exact ⟨data, hpc, h.1.1, h.1.2, h.2.symm⟩
  · cases h

theorem step_scribble_eq_some {a : A} {junk : Node A V} (h : q.step (.scribble a junk) = some q') :
    q.allocated a = false ∧ q' = q.write a junk := by
  simp only [step, ite_none_right_eq_some, some.injEq] at h
  exact ⟨h.1, h.2.symm⟩

inductive Reads (q : Queue I A V) : Pc A V → Pc A V → Prop
  | pushReadTail {data n} : Reads q (.pushReadTail data n) (.pushReadNext data n q.tail)
  | pushReadNext {data n tail} :
    Reads q (.pushReadNext data n tail) (.pushCheck data n tail (q.mem tail).next)
  | pushLast {data n tail next} : Reads q (.pushCheck data n tail next) (.pushLink data n tail)
  | pushBehind {data n tail next} (hne : next ≠ 0) :
    Reads q (.pushCheck data n tail next) (.pushHelp data n tail next)
  | pushMoved {data n tail next} : Reads q (.pushCheck data n tail next) (.pushReadTail data n)
  | pushFailed {data n tail} (hne : (q.mem tail).next ≠ 0) :
    Reads q (.pushLink data n tail) (.pushReadTail data n)
  | pushInc : Reads q .pushInc .pushRet
  | pushRet : Reads q .pushRet .idle
  | popReadHead : Reads q .popReadHead (.popReadTail q.head)
  | popReadTail {head} : Reads q (.popReadTail head) (.popReadNext head q.tail)
  | popReadNext {head tail} :
    Reads q (.popReadNext head tail) (.popCheck head tail (q.mem head).next)
  | popNone {head tail next} (hhead : head = q.head) (htail : head = tail) (hnull : next = 0) :
    Reads q (.popCheck head tail next) .popEmpty
  | popBehind {head tail next} (htail : head = tail) (hne : next ≠ 0) :
    Reads q (.popCheck head tail next) (.popHelp head next)
  | popSome {head tail next} (hhead : head = q.head) (htail : head ≠ tail) :
    Reads q (.popCheck head tail next) (.popReadP head next)
  | popMoved {head tail next} : Reads q (.popCheck head tail next) .popReadHead
  | popReadP {head next} : Reads q (.popReadP head next) (.popTake head next (q.mem next).p)
  | popFailed {head next ret} (hne : q.head ≠ head) :
    Reads q (.popTake head next ret) .popReadHead
  | popDec {ret} : Reads q (.popDec ret) (.popRet ret)
  | popRet {ret} : Reads q (.popRet ret) .idle
  | popEmpty : Reads q .popEmpty .idle

inductive Swings : Pc A V → (old new : A) → Pc A V → Prop
  | pushHelp {data n tail next} :
    Swings (.pushHelp data n tail next) tail next (.pushReadTail data n)
  | pushSwing {n tail} : Swings (.pushSwing n tail) tail n .pushInc
  | popHelp {head next} : Swings (.popHelp head next) head next .popReadHead

inductive Access (q : Queue I A V) (i : I) : Queue I A V → Prop
  | reads {pc pc' len} (hpc : q.pc i = pc) (h : Reads q pc pc') :
    Access q i ({ q with len := len }.goto i pc')
  | swings {pc old new pc'} (hpc : q.pc i = pc) (h : Swings pc old new pc') :
    Access q i ((q.casTail old new).goto i pc')
  | setP {data n} (hpc : q.pc i = .pushSetP data n) :
    Access q i ((q.write n { q.mem n with p := data }).goto i (.pushSetNext data n))
  | setNext {data n} (hpc : q.pc i = .pushSetNext data n) :
    Access q i ((q.write n { q.mem n with next := 0 }).goto i (.pushReadTail data n))
  | link {data n tail} (hpc : q.pc i = .pushLink data n tail) (hnull : (q.mem tail).next = 0) :
    Access q i ((q.write tail { q.mem tail with next := n }).goto i (.pushSwing n tail))
  | take {head next ret} (hpc : q.pc i = .popTake head next ret) (hhead : q.head = head) :
    Access q i ({ q with head := next }.goto i (.popFree head ret))
  | free {head ret} (hpc : q.pc i = .popFree head ret) :
    Access q i
      ({ q with allocated := update q.allocated head false }.goto i (.popDec ret))

theorem access_cases (h : q.access i = some q') : Access q i q' := by
  simp only [access] at h
  repeat' split at h
  all_goals
    next hpc =>
      cases h <;> first
        | exact .reads ‹_› (by constructor <;> assumption)
        | exact .swings hpc (by constructor)
        | constructor <;> assumption

end Steps

def event (q : Queue I A V) : Label I A V → List (Event I (Op V) (Ret V))
  | .call i op => [.call i op]
  | .access i =>
    match q.pc i with
    | .pushRet => [.ret i .pushed]
    | .popRet ret => [.ret i (.popped (some ret))]
    | .popEmpty => [.ret i (.popped none)]
    | _ => []
  | _ => []

def linked (q : Queue I A V) : Label I A V → List V
  | .access i =>
    match q.pc i with
    | .pushLink data _ tail => if (q.mem tail).next = 0 then [data] else []
    | _ => []
  | _ => []

def taken (q : Queue I A V) : Label I A V → List V
  | .access i =>
    match q.pc i with
    | .popTake head _ ret => if q.head = head then [ret] else []
    | _ => []
  | _ => []

/-- The node whose address an agent has read and goes on to use: `tail` of a push, `head` of a
pop. -/
def Pc.hazard : Pc A V → Option A
  | .pushReadNext _ _ tail | .pushCheck _ _ tail _ | .pushLink _ _ tail | .pushHelp _ _ tail _
  | .pushSwing _ tail => some tail
  | .popReadTail head | .popReadNext head _ | .popCheck head _ _ | .popHelp head _
  | .popReadP head _ | .popTake head _ _ => some head
  | _ => none

/-- `malloc` does not hand out a node while an agent still uses an address of it that it read
before. -/
def NoReuse (q : Queue I A V) : Label I A V → Prop
  | .malloc _ n _ => ∀ i, (q.pc i).hazard ≠ some n
  | _ => True

/-- What the allocator keeps in free memory is not taken for a null link.  A chunk of `dlmalloc` that
is merged with its neighbour can have a zero there, the `index` of its bin. -/
def KeepsLink (_ : Queue I A V) : Label I A V → Prop
  | .scribble _ junk => junk.next ≠ 0
  | _ => True

/-- All that the queue needs of the allocator. -/
def Careful (q : Queue I A V) (lbl : Label I A V) : Prop := q.NoReuse lbl ∧ q.KeepsLink lbl

instance NoReuse.decidable [Fintype I] (q : Queue I A V) : ∀ lbl, Decidable (q.NoReuse lbl)
  | .malloc _ n _ => inferInstanceAs (Decidable (∀ i, (q.pc i).hazard ≠ some n))
  | .scribble _ _ => isTrue trivial
  | .call _ _ => isTrue trivial
  | .access _ => isTrue trivial

instance KeepsLink.decidable (q : Queue I A V) : ∀ lbl, Decidable (q.KeepsLink lbl)
  | .malloc _ _ _ => isTrue trivial
  | .scribble _ junk => inferInstanceAs (Decidable (junk.next ≠ 0))
  | .call _ _ => isTrue trivial
  | .access _ => isTrue trivial

instance Careful.decidable [Fintype I] (q : Queue I A V) (lbl : Label I A V) :
    Decidable (q.Careful lbl) :=
  inferInstanceAs (Decidable (_ ∧ _))

def fifo : List V → Op V → List V × Ret V
  | vs, .push data => (vs ++ [data], .pushed)
  | [], .pop => ([], .popped none)
  | v :: vs, .pop => (vs, .popped (some v))

end Queue
end ForgeOS
