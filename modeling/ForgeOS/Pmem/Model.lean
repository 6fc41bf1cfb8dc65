import ForgeOS.Stack.Model

/-!
# The physical page allocator of `pmem.c`, on any number of processors

The free pages are kept on a stack, `page_stack`, each in a `struct phys_page` of its own.  No lock
is taken.  The stack is the one of `Stack.Model`: between the call of a stack operation and its
return an agent is `inStack`, and its steps are steps of the stack.  The model starts after the
first call of `pmem_dealloc`, which creates the stack.  `freeKiB` is read and written in two steps.
-/

namespace ForgeOS

open Function

/-- The points of `pmem_alloc` and `pmem_dealloc` between two accesses to memory.  The names say
what is done next. -/
inductive Pmem.Pc (P B : Type) where
  | idle
  /-- `page = malloc_nolock(sizeof(struct phys_page))`. -/
  | deallocMalloc (p : P)
  /-- `page->addr = p`. -/
  | deallocSetAddr (p : P) (page : B)
  /-- Call `stack_push(page_stack, page)`. -/
  | deallocPush (page : B)
  /-- Read `freeKiB`. -/
  | deallocReadFree
  /-- Write `freeKiB`, and return. -/
  | deallocSetFree (free : UInt64)
  /-- Call `stack_pop(page_stack)`. -/
  | allocPop
  /-- In `stack_push` or `stack_pop`. -/
  | inStack
  /-- `ret = page->addr`, if `page` is not null. -/
  | allocReadAddr (page : B)
  /-- `free_nolock(page)`. -/
  | allocFree (page : B) (ret : P)
  /-- Read `freeKiB`. -/
  | allocReadFree (ret : P)
  /-- Write `freeKiB`. -/
  | allocSetFree (ret : P) (free : UInt64)
  /-- Return the page `ret`. -/
  | allocRet (ret : P)
  /-- Return 0: there is no page. -/
  | allocFail
  deriving DecidableEq

/-- The allocator: the stack, the `addr` fields of the `struct phys_page`s at the addresses `B` and
which of them are allocated, and where the agents are. -/
structure Pmem (I A B P : Type) where
  stack : Stack I A B
  addr : B → P
  live : B → Bool
  freeKiB : UInt64
  pc : I → Pmem.Pc P B

namespace Pmem

variable {I A B P : Type}

def create [Zero A] (mem : A → Stack.Node A B) (allocated : A → Bool) (addr : B → P)
    (live : B → Bool) : Pmem I A B P where
  stack := .createStack mem allocated
  addr := addr
  live := live
  freeKiB := 0
  pc := fun _ ↦ .idle

def pageKiB : UInt64 := 0x1000 / 1024

variable [DecidableEq I]

def goto (s : Pmem I A B P) (i : I) (pc : Pc P B) : Pmem I A B P :=
  { s with pc := update s.pc i pc }

/-- Where the agents are after a step of the stack: one whose call has returned goes on. -/
def resume (s : Pmem I A B P) : Stack.Label I A B → I → Pc P B
  | .access i =>
    match s.stack.pc i with
    | .pushRet => update s.pc i .deallocReadFree
    | .popRet page => update s.pc i (.allocReadAddr page)
    | _ => s.pc
  | _ => s.pc

variable [Zero A] [DecidableEq A] [Zero B] [DecidableEq B]

def callStack (s : Pmem I A B P) (i : I) (op : Stack.Op B) : Option (Pmem I A B P) :=
  (s.stack.step (.call i op)).map fun stack ↦ { s with stack := stack }.goto i .inStack

/-- The next access of agent `i`, except for `malloc_nolock` and those of the stack. -/
def access (s : Pmem I A B P) (i : I) : Option (Pmem I A B P) :=
  match s.pc i with
  | .idle => none
  | .deallocMalloc _ => none
  | .deallocSetAddr p page =>
    some ({ s with addr := update s.addr page p }.goto i (.deallocPush page))
  | .deallocPush page => s.callStack i (.push page)
  | .deallocReadFree => some (s.goto i (.deallocSetFree (s.freeKiB + pageKiB)))
  | .deallocSetFree free => some ({ s with freeKiB := free }.goto i .idle)
  | .allocPop => s.callStack i .pop
  | .inStack => none
  | .allocReadAddr page =>
    if page = 0 then some (s.goto i .allocFail) else some (s.goto i (.allocFree page (s.addr page)))
  | .allocFree page ret =>
    some ({ s with live := update s.live page false }.goto i (.allocReadFree ret))
  | .allocReadFree ret => some (s.goto i (.allocSetFree ret (s.freeKiB - pageKiB)))
  | .allocSetFree ret free => some ({ s with freeKiB := free }.goto i (.allocRet ret))
  | .allocRet _ => some (s.goto i .idle)
  | .allocFail => some (s.goto i .idle)

inductive Label (I A B P : Type) where
  | dealloc (i : I) (p : P)
  | alloc (i : I)
  /-- `malloc_nolock` returns `page`, which holds `junk`, to agent `i`. -/
  | malloc (i : I) (page : B) (junk : P)
  /-- Agent `i` makes its next access to memory, or returns. -/
  | access (i : I)
  /-- A step inside an operation of the stack. -/
  | stack (lbl : Stack.Label I A B)

def step (s : Pmem I A B P) : Label I A B P → Option (Pmem I A B P)
  | .dealloc i p =>
    match s.pc i with
    | .idle => some (s.goto i (.deallocMalloc p))
    | _ => none
  | .alloc i =>
    match s.pc i with
    | .idle => some (s.goto i .allocPop)
    | _ => none
  | .malloc i page junk =>
    match s.pc i with
    | .deallocMalloc p =>
      if page ≠ 0 ∧ s.live page = false then
        some ({ s with
          addr := update s.addr page junk
          live := update s.live page true }.goto i (.deallocSetAddr p page))
      else none
    | _ => none
  | .access i => s.access i
  -- The stack is called by `access` only.
  | .stack (.call _ _) => none
  | .stack lbl => (s.stack.step lbl).map fun stack ↦ { s with stack := stack, pc := s.resume lbl }

omit [DecidableEq I] [Zero A] [DecidableEq A] [Zero B] [DecidableEq B] in
def deallocated (_ : Pmem I A B P) : Label I A B P → List P
  | .dealloc _ p => [p]
  | _ => []

omit [DecidableEq I] [Zero A] [DecidableEq A] [Zero B] [DecidableEq B] in
def handedOut (s : Pmem I A B P) : Label I A B P → List P
  | .access i =>
    match s.pc i with
    | .allocRet ret => [ret]
    | _ => []
  | _ => []

/-- A step that meets the conditions of the stack. -/
def Careful (s : Pmem I A B P) : Label I A B P → Prop
  | .stack lbl => Stack.Careful s.stack lbl
  | _ => True

end Pmem
end ForgeOS
