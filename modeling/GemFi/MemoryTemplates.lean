import GemFi.GlobalTotals

/-!
The execution templates of arch/alpha/isa/mem.isa. A memory instruction has two
translations: `execute` for the atomic CPU, and `initiateAcc` followed by
`completeAcc` for the CPUs that split an access. The hook of the load/store
stage was added to these templates one by one, and LoadExecute was left out.
Registers and memory are parameters; `none` is an access that does not complete.
-/

namespace GemFi.MemoryTemplates

open ThreadInfo Transitions FaultQueue Corruption FaultScan Activation Activation.FiSystem Hooks
open Calls GlobalTotals

structure MemorySystem (Memory Kind : Type) where
  -- Memory, with the lock registers and the failure counter of the context. A write answers with
  -- the extra data of its request.
  read : Kind → Addr → Memory → Option (Memory × Operand)
  write : Kind → Addr → Operand → Memory → Option (Memory × Word)
  clearFailures : Memory → Memory

/-- The code blocks of the three formats. `result` and `setResult` read and write
the register that a store-conditional reports to. -/
inductive Format (Regs : Type) where
  | load (memacc : Operand → Regs → Regs)
  | store (memacc : Regs → Operand)
  | storeCond (memacc : Regs → Operand) (result : Regs → Word) (setResult : Word → Regs → Regs)

/-- A memory instruction: `kind` is its access size and its request flags. -/
structure MemoryInst (Regs Kind : Type) where
  kind : Kind
  fpEnabled : Regs → Bool
  address : Regs → Addr
  hooked : Bool
  format : Format Regs

structure Access (Regs Kind : Type) where
  inst : MemoryInst Regs Kind
  ea : HookCall
  data : HookCall

structure LdsCall where
  -- a value presented to lds_fault: the number of the access in the stream, and the faults that
  -- were fired on it
  access : Nat
  value : Operand
  fired : List FaultPtr

structure ExecState (Regs Memory : Type) where
  fi : FiSystem
  regs : Regs
  memory : Memory
  accesses : Nat
  presented : List LdsCall

inductive Request where
  | read (ea : Addr)
  | write (ea : Addr) (mem : Operand)

structure Packet where
  data : Operand
  extraData : Word

section Templates

variable {Regs Memory Kind : Type} (fuel : Nat) (tc : ThreadContext)
  (system : MemorySystem Memory Kind)

/-- `EA = Rb + disp; iew_fault(xc, xc->tcBase(), &EA)`. The instructions of PAL
mode have no hook in it. -/
def eaCode (a : Access Regs Kind) (s : ExecState Regs Memory) :
    Option (ExecState Regs Memory × Addr) :=
  if a.inst.hooked then do
    let (fi, value, _) ← iewFault fuel tc a.ea (.uint64 (a.inst.address s.regs)) s.fi
    match value with
    | .uint64 ea => some ({ s with fi := fi }, ea)
    | _ => none
  else some (s, a.inst.address s.regs)

/-- `if(fi_system->fi_loadstore) Mem = fi_system->lds_fault(xc,xc->tcBase(),Mem)`. -/
def ldsCode (a : Access Regs Kind) (mem : Operand) (s : ExecState Regs Memory) :
    Option (ExecState Regs Memory × Operand) :=
  if s.fi.gate .loadStore then do
    let (fi, value, fired) ← ldsFault fuel tc a.data mem s.fi
    some ({ s with fi := fi, presented := s.presented ++ [⟨s.accesses, mem, fired⟩] }, value)
  else some (s, mem)

/-- `Ra = (tmp == 0 || tmp == 1) ? tmp : Ra`, and the failure counter. -/
def postacc (setResult : Word → Regs → Regs) (writeResult ra : Word) (s : ExecState Regs Memory) :
    ExecState Regs Memory :=
  { s with
    regs := setResult (if writeResult = 0 ∨ writeResult = 1 then writeResult else ra) s.regs
    memory := if writeResult = 1 then system.clearFailures s.memory else s.memory }

def loadExecute (a : Access Regs Kind) (memacc : Operand → Regs → Regs)
    (s : ExecState Regs Memory) : Option (ExecState Regs Memory) :=
  if a.inst.fpEnabled s.regs then do
    let (s, ea) ← eaCode fuel tc a s
    let (memory, mem) ← system.read a.inst.kind ea s.memory
    some { s with memory := memory, regs := memacc mem s.regs }
  else none

def loadInitiateAcc (a : Access Regs Kind) (s : ExecState Regs Memory) :
    Option (ExecState Regs Memory × Request) :=
  if a.inst.fpEnabled s.regs then do
    let (s, ea) ← eaCode fuel tc a s
    some (s, .read ea)
  else none

def loadCompleteAcc (a : Access Regs Kind) (memacc : Operand → Regs → Regs) (pkt : Packet)
    (s : ExecState Regs Memory) : Option (ExecState Regs Memory) :=
  if a.inst.fpEnabled s.regs then do
    let (s, mem) ← ldsCode fuel tc a pkt.data s
    some { s with regs := memacc mem s.regs }
  else none

def storeExecute (a : Access Regs Kind) (memacc : Regs → Operand) (s : ExecState Regs Memory) :
    Option (ExecState Regs Memory) :=
  if a.inst.fpEnabled s.regs then do
    let (s, ea) ← eaCode fuel tc a s
    let (s, mem) ← ldsCode fuel tc a (memacc s.regs) s
    let (memory, _) ← system.write a.inst.kind ea mem s.memory
    some { s with memory := memory }
  else none

def storeCondExecute (a : Access Regs Kind) (memacc : Regs → Operand) (result : Regs → Word)
    (setResult : Word → Regs → Regs) (s : ExecState Regs Memory) :
    Option (ExecState Regs Memory) :=
  if a.inst.fpEnabled s.regs then do
    let (s, ea) ← eaCode fuel tc a s
    let (s, mem) ← ldsCode fuel tc a (memacc s.regs) s
    let (memory, writeResult) ← system.write a.inst.kind ea mem s.memory
    some (postacc system setResult writeResult (result s.regs) { s with memory := memory })
  else none

def storeInitiateAcc (a : Access Regs Kind) (memacc : Regs → Operand)
    (s : ExecState Regs Memory) : Option (ExecState Regs Memory × Request) :=
  if a.inst.fpEnabled s.regs then do
    let (s, ea) ← eaCode fuel tc a s
    let (s, mem) ← ldsCode fuel tc a (memacc s.regs) s
    some (s, .write ea mem)
  else none

def storeCompleteAcc (s : ExecState Regs Memory) : Option (ExecState Regs Memory) := some s

def storeCondCompleteAcc (a : Access Regs Kind) (setResult : Word → Regs → Regs) (pkt : Packet)
    (s : ExecState Regs Memory) : Option (ExecState Regs Memory) :=
  -- the result register is declared here, with the value zero, and not read
  if a.inst.fpEnabled s.regs then some (postacc system setResult pkt.extraData 0 s) else none

def execute (a : Access Regs Kind) (s : ExecState Regs Memory) : Option (ExecState Regs Memory) :=
  match a.inst.format with
  | .load memacc => loadExecute fuel tc system a memacc s
  | .store memacc => storeExecute fuel tc system a memacc s
  | .storeCond memacc result setResult => storeCondExecute fuel tc system a memacc result setResult s

def initiateAcc (a : Access Regs Kind) (s : ExecState Regs Memory) :
    Option (ExecState Regs Memory × Request) :=
  match a.inst.format with
  | .load _ => loadInitiateAcc fuel tc a s
  | .store memacc | .storeCond memacc _ _ => storeInitiateAcc fuel tc a memacc s

def completeAcc (a : Access Regs Kind) (pkt : Packet) (s : ExecState Regs Memory) :
    Option (ExecState Regs Memory) :=
  match a.inst.format with
  | .load memacc => loadCompleteAcc fuel tc a memacc pkt s
  | .store _ => storeCompleteAcc s
  | .storeCond _ _ setResult => storeCondCompleteAcc system a setResult pkt s

def respond (kind : Kind) (request : Request) (memory : Memory) : Option (Memory × Packet) :=
  match request with
  | .read ea => do
      let (memory, data) ← system.read kind ea memory
      some (memory, ⟨data, 0⟩)
  | .write ea mem => do
      let (memory, extraData) ← system.write kind ea mem memory
      some (memory, ⟨mem, extraData⟩)

def atomicAccess (s : ExecState Regs Memory) (a : Access Regs Kind) :
    Option (ExecState Regs Memory) := do
  let s ← execute fuel tc system a s
  some { s with accesses := s.accesses + 1 }

def splitAccess (s : ExecState Regs Memory) (a : Access Regs Kind) :
    Option (ExecState Regs Memory) := do
  let (s, request) ← initiateAcc fuel tc a s
  let (memory, pkt) ← respond system a.inst.kind request s.memory
  let s ← completeAcc fuel tc system a pkt { s with memory := memory }
  some { s with accesses := s.accesses + 1 }

end Templates

def loadStores (fi : FiSystem) (ptr : ThreadPtr) : Option Word :=
  (fi.threadInfo ptr).map fun t => t.all.get .loadStore

section Presents

variable {Regs Memory Kind : Type} {fuel : Nat} {tc : ThreadContext}
  {system : MemorySystem Memory Kind} {s s' s'' : ExecState Regs Memory} {a : Access Regs Kind}
  {n m : Nat}

/-- From `s` to `s'` the hook was called `n` times if the gate of its stage is
open, and nothing was counted for it if the gate is closed. -/
structure Presents (n : Nat) (s s' : ExecState Regs Memory) : Prop where
  gate : s'.fi.gate = s.fi.gate
  calls : s'.presented.length = s.presented.length + if s.fi.gate .loadStore then n else 0
  closed : s.fi.gate .loadStore = false →
    s'.presented = s.presented ∧ ∀ ptr, loadStores s'.fi ptr = loadStores s.fi ptr

theorem Presents.same (fi : s'.fi = s.fi) (presented : s'.presented = s.presented) :
    Presents 0 s s' := by
  refine ⟨congrArg FiSystem.gate fi, ?_, fun _ => ⟨presented, fun ptr => ?_⟩⟩
  · rw [presented, ite_self, Nat.add_zero]
  · rw [fi]

/-- What the rest of a template does to registers and memory. -/
theorem Presents.upTo (first : Presents n s s') (fi : s''.fi = s'.fi)
    (presented : s''.presented = s'.presented) : Presents n s s'' := by
  refine ⟨(congrArg FiSystem.gate fi).trans first.gate, ?_, fun shut => ⟨?_, fun ptr => ?_⟩⟩
  · rw [presented]
    exact first.calls
  · exact presented.trans (first.closed shut).1
  · rw [fi]
    exact (first.closed shut).2 ptr

theorem Presents.trans (first : Presents n s s') (second : Presents m s' s'') :
    Presents (n + m) s s'' := by
  refine ⟨second.gate.trans first.gate, ?_, ?_⟩
  · rw [second.calls, first.calls, first.gate]
    split <;> omega
  · intro shut
    obtain ⟨presented, counters⟩ := first.closed shut
    obtain ⟨presented', counters'⟩ := second.closed (first.gate ▸ shut)
    exact ⟨presented'.trans presented, fun ptr => (counters' ptr).trans (counters ptr)⟩

theorem iewFault_loadStores {call : HookCall} {value value' : Operand} {fi fi' : FiSystem}
    {fired : List FaultPtr} (returned : iewFault fuel tc call value fi = some (fi', value', fired))
    (ptr : ThreadPtr) : loadStores fi' ptr = loadStores fi ptr := by
  rcases operandFault_worked .executed (fun _ _ => rfl) returned with
    ⟨rfl, _⟩ | ⟨other, _, _, ⟨_, metadata, rfl⟩ | ⟨_, counts⟩⟩
  · rfl
  · rfl
  · unfold loadStores
    rw [counter_counts counts ptr .loadStore]
    simp [moved, Event.amount]

theorem eaCode_presents {ea : Addr} (returned : eaCode fuel tc a s = some (s', ea)) :
    Presents 0 s s' ∧ s'.regs = s.regs := by
  unfold eaCode at returned
  split at returned
  · obtain ⟨⟨fi, value, fired⟩, hook, rest⟩ := Option.bind_eq_some_iff.mp returned
    dsimp only at rest
    split at rest
    · cases rest
      refine ⟨⟨(operandFault_frame hook).2.2, by simp, fun _ => ⟨rfl, ?_⟩⟩, rfl⟩
      exact iewFault_loadStores hook
    · cases rest
  · cases returned
    exact ⟨Presents.same rfl rfl, rfl⟩

theorem ldsCode_presents {mem mem' : Operand}
    (returned : ldsCode fuel tc a mem s = some (s', mem')) :
    Presents 1 s s' ∧ s'.regs = s.regs := by
  unfold ldsCode at returned
  split at returned
  · rename_i isOpen
    obtain ⟨⟨fi, value, fired⟩, hook, result⟩ := Option.bind_eq_some_iff.mp returned
    cases result
    refine ⟨⟨(operandFault_frame hook).2.2, by simp [isOpen], fun shut => ?_⟩, rfl⟩
    rw [isOpen] at shut
    cases shut
  · rename_i shut
    cases returned
    exact ⟨⟨rfl, by simp [shut], fun _ => ⟨rfl, fun _ => rfl⟩⟩, rfl⟩

def Access.storing (a : Access Regs Kind) : Bool :=
  -- whether the template for the atomic CPU calls the hook: not for a load
  match a.inst.format with
  | .load _ => false
  | .store _ | .storeCond _ _ _ => true

theorem loadExecute_presents {memacc : Operand → Regs → Regs}
    (executed : loadExecute fuel tc system a memacc s = some s') : Presents 0 s s' := by
  unfold loadExecute at executed
  split at executed
  · obtain ⟨⟨addressed, ea⟩, address, rest⟩ := Option.bind_eq_some_iff.mp executed
    obtain ⟨⟨memory, mem⟩, _, result⟩ := Option.bind_eq_some_iff.mp rest
    cases result
    exact (eaCode_presents address).1.upTo rfl rfl
  · cases executed

theorem storeExecute_presents {memacc : Regs → Operand}
    (executed : storeExecute fuel tc system a memacc s = some s') : Presents 1 s s' := by
  unfold storeExecute at executed
  split at executed
  · obtain ⟨⟨addressed, ea⟩, address, rest⟩ := Option.bind_eq_some_iff.mp executed
    obtain ⟨⟨hooked, mem⟩, hook, rest⟩ := Option.bind_eq_some_iff.mp rest
    obtain ⟨⟨memory, _⟩, _, result⟩ := Option.bind_eq_some_iff.mp rest
    cases result
    exact ((eaCode_presents address).1.trans (ldsCode_presents hook).1).upTo rfl rfl
  · cases executed

theorem storeCondExecute_presents {memacc : Regs → Operand} {ra : Regs → Word}
    {setResult : Word → Regs → Regs}
    (executed : storeCondExecute fuel tc system a memacc ra setResult s = some s') :
    Presents 1 s s' := by
  unfold storeCondExecute at executed
  split at executed
  · obtain ⟨⟨addressed, ea⟩, address, rest⟩ := Option.bind_eq_some_iff.mp executed
    obtain ⟨⟨hooked, mem⟩, hook, rest⟩ := Option.bind_eq_some_iff.mp rest
    obtain ⟨⟨memory, _⟩, _, result⟩ := Option.bind_eq_some_iff.mp rest
    cases result
    exact ((eaCode_presents address).1.trans (ldsCode_presents hook).1).upTo rfl rfl
  · cases executed

theorem atomicAccess_presents (returned : atomicAccess fuel tc system s a = some s') :
    Presents (if a.storing then 1 else 0) s s' := by
  obtain ⟨executed, execution, result⟩ := Option.bind_eq_some_iff.mp returned
  cases result
  unfold execute at execution
  unfold Access.storing
  split at execution
  · exact (loadExecute_presents execution).upTo rfl rfl
  · exact (storeExecute_presents execution).upTo rfl rfl
  · exact (storeCondExecute_presents execution).upTo rfl rfl

theorem loadInitiateAcc_presents {request : Request}
    (initiated : loadInitiateAcc fuel tc a s = some (s', request)) : Presents 0 s s' := by
  unfold loadInitiateAcc at initiated
  split at initiated
  · obtain ⟨⟨addressed, ea⟩, address, result⟩ := Option.bind_eq_some_iff.mp initiated
    cases result
    exact (eaCode_presents address).1
  · cases initiated

theorem loadCompleteAcc_presents {memacc : Operand → Regs → Regs} {pkt : Packet}
    (completed : loadCompleteAcc fuel tc a memacc pkt s = some s') : Presents 1 s s' := by
  unfold loadCompleteAcc at completed
  split at completed
  · obtain ⟨⟨hooked, mem⟩, hook, result⟩ := Option.bind_eq_some_iff.mp completed
    cases result
    exact (ldsCode_presents hook).1.upTo rfl rfl
  · cases completed

theorem storeInitiateAcc_presents {memacc : Regs → Operand} {request : Request}
    (initiated : storeInitiateAcc fuel tc a memacc s = some (s', request)) :
    Presents 1 s s' := by
  unfold storeInitiateAcc at initiated
  split at initiated
  · obtain ⟨⟨addressed, ea⟩, address, rest⟩ := Option.bind_eq_some_iff.mp initiated
    obtain ⟨⟨hooked, mem⟩, hook, result⟩ := Option.bind_eq_some_iff.mp rest
    cases result
    exact (eaCode_presents address).1.trans (ldsCode_presents hook).1
  · cases initiated

theorem storeCondCompleteAcc_presents {setResult : Word → Regs → Regs} {pkt : Packet}
    (completed : storeCondCompleteAcc system a setResult pkt s = some s') : Presents 0 s s' := by
  unfold storeCondCompleteAcc at completed
  split at completed
  · cases completed
    exact Presents.same rfl rfl
  · cases completed

theorem splitAccess_presents (returned : splitAccess fuel tc system s a = some s') :
    Presents 1 s s' := by
  obtain ⟨⟨issued, request⟩, initiated, rest⟩ := Option.bind_eq_some_iff.mp returned
  obtain ⟨⟨memory, pkt⟩, _, rest⟩ := Option.bind_eq_some_iff.mp rest
  obtain ⟨ended, completed, result⟩ := Option.bind_eq_some_iff.mp rest
  cases result
  unfold initiateAcc at initiated
  unfold completeAcc at completed
  split at initiated
  · rename_i format
    rw [format] at completed
    have answered : Presents 0 s { issued with memory := memory } :=
      (loadInitiateAcc_presents initiated).upTo rfl rfl
    exact (answered.trans (loadCompleteAcc_presents completed)).upTo rfl rfl
  · rename_i format
    rw [format] at completed
    cases completed
    exact (storeInitiateAcc_presents initiated).upTo rfl rfl
  · rename_i format
    rw [format] at completed
    have answered : Presents 1 s { issued with memory := memory } :=
      (storeInitiateAcc_presents initiated).upTo rfl rfl
    exact (answered.trans (storeCondCompleteAcc_presents completed)).upTo rfl rfl

end Presents

section Streams

variable {Regs Memory Kind : Type} {fuel : Nat} {tc : ThreadContext}
  {system : MemorySystem Memory Kind} {s s' : ExecState Regs Memory}

theorem atomic_run_presents (accesses : List (Access Regs Kind)) (s : ExecState Regs Memory)
    (ran : run (atomicAccess fuel tc system) accesses s = some s') :
    Presents (accesses.countP Access.storing) s s' := by
  induction accesses generalizing s with
  | nil =>
      cases ran
      exact Presents.same rfl rfl
  | cons a rest ih =>
      obtain ⟨next, stepped, ran⟩ := Option.bind_eq_some_iff.mp ran
      have both := (atomicAccess_presents stepped).trans (ih next ran)
      rwa [List.countP_cons, Nat.add_comm]

theorem split_run_presents (accesses : List (Access Regs Kind)) (s : ExecState Regs Memory)
    (ran : run (splitAccess fuel tc system) accesses s = some s') :
    Presents accesses.length s s' := by
  induction accesses generalizing s with
  | nil =>
      cases ran
      exact Presents.same rfl rfl
  | cons a rest ih =>
      obtain ⟨next, stepped, ran⟩ := Option.bind_eq_some_iff.mp ran
      have both := (splitAccess_presents stepped).trans (ih next ran)
      rwa [List.length_cons, Nat.add_comm]

/-- A store-conditional of the access is answered with success or failure, not
with the value of a Turbolaser mailbox. -/
def Access.Conventional (system : MemorySystem Memory Kind) (a : Access Regs Kind) : Prop :=
  match a.inst.format with
  | .storeCond _ _ _ => ∀ ea mem memory memory' writeResult,
      system.write a.inst.kind ea mem memory = some (memory', writeResult) →
        writeResult = 0 ∨ writeResult = 1
  | _ => True

theorem postacc_conventional {setResult : Word → Regs → Regs} {writeResult : Word}
    (conventional : writeResult = 0 ∨ writeResult = 1) (ra ra' : Word) (s : ExecState Regs Memory) :
    postacc system setResult writeResult ra s = postacc system setResult writeResult ra' s := by
  unfold postacc
  rw [if_pos conventional, if_pos conventional]

/-- The two translations of a store, and of a store-conditional that is not one
of a mailbox, agree in everything. -/
theorem store_translations_agree {a : Access Regs Kind} (storing : a.storing = true)
    (conventional : a.Conventional system) (s : ExecState Regs Memory) :
    splitAccess fuel tc system s a = atomicAccess fuel tc system s a := by
  unfold Access.storing at storing
  unfold Access.Conventional at conventional
  unfold splitAccess atomicAccess execute initiateAcc completeAcc
  cases format : a.inst.format with
  | load memacc =>
      rw [format] at storing
      cases storing
  | store memacc =>
      dsimp only [storeInitiateAcc, storeExecute, storeCompleteAcc]
      split
      · cases address : eaCode fuel tc a s with
        | none => rfl
        | some addressed =>
            cases hook : ldsCode fuel tc a (memacc addressed.1.regs) addressed.1 with
            | none => simp [hook]
            | some hooked =>
                cases written : system.write a.inst.kind addressed.2 hooked.2 hooked.1.memory with
                | none => simp [hook, written, respond]
                | some answer => simp [hook, written, respond]
      · rfl
  | storeCond memacc ra setResult =>
      rw [format] at conventional
      dsimp only [storeInitiateAcc, storeCondExecute, storeCondCompleteAcc]
      split
      · rename_i enabled
        cases address : eaCode fuel tc a s with
        | none => rfl
        | some addressed =>
            cases hook : ldsCode fuel tc a (memacc addressed.1.regs) addressed.1 with
            | none => simp [hook]
            | some hooked =>
                -- the hooks write no registers, so both translations read ra of the same state
                have regs : hooked.1.regs = s.regs :=
                  (ldsCode_presents hook).2.trans (eaCode_presents address).2
                cases written : system.write a.inst.kind addressed.2 hooked.2 hooked.1.memory with
                | none => simp [hook, written, respond]
                | some answer =>
                    have same := conventional _ _ _ _ _ written
                    simp [hook, written, respond, regs, enabled,
                      postacc_conventional same (ra s.regs) 0#64]
      · rfl

theorem store_runs_agree (accesses : List (Access Regs Kind))
    (storing : ∀ a ∈ accesses, a.storing = true)
    (conventional : ∀ a ∈ accesses, a.Conventional system) (s : ExecState Regs Memory) :
    run (splitAccess fuel tc system) accesses s = run (atomicAccess fuel tc system) accesses s := by
  induction accesses generalizing s with
  | nil => rfl
  | cons a rest ih =>
      rw [List.forall_mem_cons] at storing conventional
      rw [run_cons, run_cons, store_translations_agree storing.1 conventional.1]
      exact congrArg _ (funext (ih storing.2 conventional.2))

def ExecState.hits (s : ExecState Regs Memory) : List (Nat × FaultPtr) :=
  s.presented.flatMap fun call => call.fired.map (Prod.mk call.access)

/-- The two CPU models count alike, show the same values to lds_fault, and every
fault hits the same access. -/
structure Alike (atomic timing : ExecState Regs Memory) : Prop where
  counters : ∀ ptr, loadStores atomic.fi ptr = loadStores timing.fi ptr
  values : atomic.presented.map LdsCall.value = timing.presented.map LdsCall.value
  hits : atomic.hits = timing.hits

/-- For every stream that both translations complete. They are alike only when
the gate of the stage is closed or the stream has no load. Then they are alike,
unless the gate is open and a store-conditional is answered by a mailbox, after
which StoreCondCompleteAcc leaves a zero in the register. -/
theorem memory_translations_alike (fuel : Nat) (tc : ThreadContext)
    (system : MemorySystem Memory Kind) (accesses : List (Access Regs Kind))
    (s atomic timing : ExecState Regs Memory)
    (ranAtomic : run (atomicAccess fuel tc system) accesses s = some atomic)
    (ranSplit : run (splitAccess fuel tc system) accesses s = some timing) :
    (Alike atomic timing → s.fi.gate .loadStore = false ∨ ∀ a ∈ accesses, a.storing = true) ∧
      (s.fi.gate .loadStore = false ∨
          (∀ a ∈ accesses, a.storing = true) ∧ (∀ a ∈ accesses, a.Conventional system) →
        Alike atomic timing) := by
  have atomicPresents := atomic_run_presents accesses s ranAtomic
  have splitPresents := split_run_presents accesses s ranSplit
  constructor
  · intro alike
    cases isOpen : s.fi.gate .loadStore with
    | false => exact Or.inl rfl
    | true =>
        -- as many calls on both sides: all accesses are among those of the atomic CPU
        have lengths := congrArg List.length alike.values
        rw [List.length_map, List.length_map, atomicPresents.calls, splitPresents.calls, isOpen]
          at lengths
        simp only [if_true, Nat.add_left_cancel_iff] at lengths
        exact Or.inr (List.countP_eq_length.mp lengths)
  · rintro (shut | ⟨storing, conventional⟩)
    · obtain ⟨presented, counters⟩ := atomicPresents.closed shut
      obtain ⟨presented', counters'⟩ := splitPresents.closed shut
      refine ⟨fun ptr => (counters ptr).trans (counters' ptr).symm, ?_, ?_⟩
      · rw [presented, presented']
      · unfold ExecState.hits
        rw [presented, presented']
    · rw [store_runs_agree accesses storing conventional, ranAtomic] at ranSplit
      cases ranSplit
      exact ⟨fun _ => rfl, rfl, rfl⟩

end Streams

def oneWord : MemorySystem Word Unit where
  read _ _ memory := some (memory, .uint64 memory)
  write _ _ mem memory := match mem with
    | .uint64 v => some (v, 1)
    | _ => some (memory, 1)
  clearFailures := id

def quadInst (format : Format Word) : MemoryInst Word Unit :=
  ⟨(), fun _ => true, fun regs => regs + 8, true, format⟩

def ldq : Access Word Unit :=
  ⟨quadInst (.load fun mem regs => match mem with
    | .uint64 v => v
    | _ => regs), ⟨0x40, 0, 1000, 0⟩, ⟨0x40, 0, 1500, 500⟩⟩

def stq : Access Word Unit := ⟨quadInst (.store .uint64), ⟨0x44, 0, 1000, 0⟩, ⟨0x44, 0, 1000, 0⟩⟩

def secondAccessRecord : FaultRecord :=
  -- a load/store fault for the event after the first
  ⟨.loadStore, .instruction, .flipBit, 1, 3, "all", "all", 1, .src, 0, 0⟩

def loadStoreStart : ExecState Word Word := ⟨(startedWith secondAccessRecord).1, 64, 7, 0, []⟩

def loadStoreContext : ThreadContext := (startedWith secondAccessRecord).2

theorem stores_alike :
    ∃ atomic timing, run (atomicAccess 9 loadStoreContext oneWord) [stq, stq] loadStoreStart =
        some atomic ∧
      run (splitAccess 9 loadStoreContext oneWord) [stq, stq] loadStoreStart = some timing ∧
      loadStoreStart.fi.gate .loadStore = true ∧ Alike atomic timing := by
  refine ⟨_, _, rfl, rfl, rfl, ?_⟩
  refine (memory_translations_alike 9 loadStoreContext oneWord [stq, stq] loadStoreStart _ _ rfl
    rfl).2 (Or.inr ⟨?_, ?_⟩)
  · intro a member
    simp only [List.mem_cons, List.not_mem_nil, or_false, or_self] at member
    rw [member]
    rfl
  · intro a member
    simp only [List.mem_cons, List.not_mem_nil, or_false, or_self] at member
    rw [member]
    exact True.intro

/-- A load and two stores: the split templates count three events and the fault
hits the first store, the template for the atomic CPU counts two and the fault
hits the second. -/
theorem load_shifts_the_fault :
    ∃ atomic timing, run (atomicAccess 9 loadStoreContext oneWord) [ldq, stq, stq]
        loadStoreStart = some atomic ∧
      run (splitAccess 9 loadStoreContext oneWord) [ldq, stq, stq] loadStoreStart = some timing ∧
      loadStores atomic.fi 0 = some 2 ∧ loadStores timing.fi 0 = some 3 ∧
      atomic.hits = [(2, 0)] ∧ timing.hits = [(1, 0)] ∧ ¬ Alike atomic timing := by
  refine ⟨_, _, rfl, rfl, rfl, rfl, rfl, rfl, fun alike => ?_⟩
  have counted : some (2 : Word) = some 3 := alike.counters 0
  revert counted
  decide

end GemFi.MemoryTemplates
