import Mathlib.Data.Fintype.Basic
import ForgeOS.Lib.Path
import ForgeOS.Lib.Run

/-!
# The stack of `stack.c`, one memory access at a time

`stack_push` and `stack_pop` take no lock; both try a compare-and-swap of `s->head` until it
succeeds.  The loop of `stack_pop` reads `s->head` twice: for `top`, and for the node whose link is
the new head.  As in `Queue.Model`, any number of agents make their accesses to memory in any order,
and what is not allocated the allocator may write to.
-/

namespace ForgeOS

structure Stack.Node (A V : Type) where
  next : A
  p : V
  deriving DecidableEq

/-- The points of `stack_push` and `stack_pop` between two accesses to memory.  The names say what
is done next. -/
inductive Stack.Pc (A V : Type) where
  | idle
  /-- `n = malloc(sizeof(struct node))`. -/
  | pushMalloc (data : V)
  /-- `n->p = data`. -/
  | pushSetP (data : V) (n : A)
  /-- `atomic_bool_compare_and_swap(&s->head, n->next, n)`. -/
  | pushLink (data : V) (n : A)
  /-- `n->next = s->head`. -/
  | pushSetNext (data : V) (n : A)
  | pushRet
  /-- `top = s->head`. -/
  | popReadTop
  /-- Read `s->head` for the new head. -/
  | popReadHead (top : A)
  /-- Read the link of that node. -/
  | popReadNext (top head : A)
  /-- `atomic_bool_compare_and_swap(&s->head, top, next)`. -/
  | popTake (top next : A)
  /-- `ret = top->p`. -/
  | popReadP (top : A)
  /-- `free(top)`. -/
  | popFree (top : A) (ret : V)
  | popRet (ret : V)
  /-- A null pointer was followed. -/
  | fault
  deriving DecidableEq

structure Stack (I A V : Type) where
  mem : A → Stack.Node A V
  allocated : A → Bool
  head : A
  pc : I → Stack.Pc A V

namespace Stack

variable {I A V : Type} [Zero A]

def createStack (mem : A → Node A V) (allocated : A → Bool) : Stack I A V where
  mem := mem
  allocated := allocated
  head := 0
  pc := fun _ ↦ .idle

inductive Op (V : Type) where
  | push (data : V)
  | pop

def Op.entry : Op V → Pc A V
  | .push data => .pushMalloc data
  | .pop => .popReadTop

variable [DecidableEq I] [DecidableEq A]

def goto (s : Stack I A V) (i : I) (pc : Pc A V) : Stack I A V :=
  { s with pc := Function.update s.pc i pc }

def write (s : Stack I A V) (a : A) (nd : Node A V) : Stack I A V :=
  { s with mem := Function.update s.mem a nd }

/-- The next access of agent `i`, except for `malloc`. -/
def access (s : Stack I A V) (i : I) : Option (Stack I A V) :=
  match s.pc i with
  | .idle => none
  | .pushMalloc _ => none
  | .pushSetP data n => some ((s.write n { s.mem n with p := data }).goto i (.pushLink data n))
  | .pushLink data n =>
    if s.head = (s.mem n).next then some ({ s with head := n }.goto i .pushRet)
    else some (s.goto i (.pushSetNext data n))
  | .pushSetNext data n =>
    some ((s.write n { s.mem n with next := s.head }).goto i (.pushLink data n))
  | .pushRet => some (s.goto i .idle)
  | .popReadTop => some (s.goto i (.popReadHead s.head))
  | .popReadHead top => some (s.goto i (.popReadNext top s.head))
  | .popReadNext top head =>
    if head = 0 then some (s.goto i .fault) else some (s.goto i (.popTake top (s.mem head).next))
  | .popTake top next =>
    if s.head = top then some ({ s with head := next }.goto i (.popReadP top))
    else some (s.goto i .popReadTop)
  | .popReadP top =>
    if top = 0 then some (s.goto i .fault) else some (s.goto i (.popFree top (s.mem top).p))
  | .popFree top ret =>
    some ({ s with allocated := Function.update s.allocated top false }.goto i (.popRet ret))
  | .popRet _ => some (s.goto i .idle)
  | .fault => none

inductive Label (I A V : Type) where
  | call (i : I) (op : Op V)
  /-- `malloc` returns the node `n`, which holds `junk`, to agent `i`. -/
  | malloc (i : I) (n : A) (junk : Node A V)
  | access (i : I)
  /-- The allocator writes to a node that is not in use. -/
  | scribble (a : A) (junk : Node A V)

def step (s : Stack I A V) : Label I A V → Option (Stack I A V)
  | .call i op =>
    match s.pc i with
    | .idle => some (s.goto i op.entry)
    | _ => none
  | .malloc i n junk =>
    match s.pc i with
    | .pushMalloc data =>
      if n ≠ 0 ∧ s.allocated n = false then
        some ({ s.write n junk with allocated := Function.update s.allocated n true }.goto i
          (.pushSetP data n))
      else none
    | _ => none
  | .access i => s.access i
  | .scribble a junk => if s.allocated a = false then some (s.write a junk) else none

omit [Zero A] [DecidableEq I] [DecidableEq A] in
def given (_ : Stack I A V) : Label I A V → List V
  | .call _ (.push data) => [data]
  | _ => []

omit [Zero A] [DecidableEq I] [DecidableEq A] in
def returned (s : Stack I A V) : Label I A V → List V
  | .access i =>
    match s.pc i with
    | .popRet ret => [ret]
    | _ => []
  | _ => []

/-- The node whose address an agent has read and still compares `s->head` with. -/
def Pc.hazard : Pc A V → Option A
  | .popReadHead top | .popReadNext top _ | .popTake top _ => some top
  | _ => none

/-- A node is not handed out again while an agent still compares `s->head` with its address. -/
def NoReuse (s : Stack I A V) : Label I A V → Prop
  | .malloc _ n _ => ∀ i, (s.pc i).hazard ≠ some n
  | _ => True

def OnStack (s : Stack I A V) (x : A) : Prop :=
  ∃ l, LinkPath (fun a ↦ (s.mem a).next) s.head l 0 ∧ x ∈ l

/-- The second read of `s->head` in `stack_pop` finds what the first one found, unless that node
has left the stack for good. -/
def TopUnchanged (s : Stack I A V) : Label I A V → Prop
  | .access i => ∀ top, s.pc i = .popReadHead top → s.head = top ∨ (top ≠ 0 ∧ ¬ OnStack s top)
  | _ => True

def Careful (s : Stack I A V) (lbl : Label I A V) : Prop := NoReuse s lbl ∧ TopUnchanged s lbl

def mallocs : List (Label I A V) → List A
  | [] => []
  | .malloc _ n _ :: lbls => n :: mallocs lbls
  | _ :: lbls => mallocs lbls

/-- The second read of `s->head` finds what the first one found: a stronger condition than
`Careful`, and one that can be tested. -/
def sameTop [Fintype I] (s : Stack I A V) : Label I A V → Bool
  | .access i =>
    match s.pc i with
    | .popReadHead top => s.head = top
    | _ => true
  | .malloc _ n _ => ∀ i, (s.pc i).hazard ≠ some n
  | _ => true

omit [DecidableEq I] in
theorem careful_of_sameTop [Fintype I] {s : Stack I A V} {lbl : Label I A V}
    (h : sameTop s lbl = true) : Careful s lbl := by
  cases lbl with
  | call i op => exact ⟨trivial, trivial⟩
  | malloc i n junk => exact ⟨by simpa [sameTop, NoReuse] using h, trivial⟩
  | access i =>
    refine ⟨trivial, fun top hpc ↦ .inl ?_⟩
    simpa [sameTop, hpc] using h
  | scribble a junk => exact ⟨trivial, trivial⟩

end Stack
end ForgeOS
