import StackCode.Machine.Step

/-! # What computations of the machine are made of

Every instruction is put together from a few operations on the state. A property of computations
that these have, and that lasts when computations follow each other, is one of all instructions.
-/

namespace StackCode

/-- Instructions that operate on collections, or call what may do so. -/
def Opcode.operates : Opcode → Bool
  | .call | .invokeMethod | .initArray | .initDict | .get | .setSubscript => true
  | _ => false

namespace Machine

def Program.within (p : Program) (limits : Limits) : Program := { p with limits }

/-- A computation under any limits that is made of operations of the machine. Those on collections,
and stores of values of modules, are among them only as far as `C` and `S` allow. -/
inductive Made (p : Program) (C S : Prop) : {α : Type} → (Limits → Exec α) → Prop where
  | done {α : Type} (a : α) : Made p C S fun _ => pure a
  | trap {α : Type} (cause : Cause) : Made p C S fun _ => (Exec.trap cause : Exec α)
  | bind {α β : Type} {m : Limits → Exec α} {rest : α → Limits → Exec β}
      (h : Made p C S m) (h' : ∀ a, Made p C S (rest a)) :
      Made p C S fun l => m l >>= fun a => rest a l
  | read : Made p C S fun _ => get
  | access {α : Type} (a : Heap.Access α) : Made p C S fun _ => Exec.access a
  | host {α : Type} (h : C) (op : Host α) : Made p C S fun _ => Exec.host op
  | push (v : Value) : Made p C S fun l => push (p.within l) v
  | pop : Made p C S fun _ => pop
  | peek : Made p C S fun _ => peek
  | cutAbove (height : Nat) : Made p C S fun _ => cutAbove height
  | shrink (height : Nat) : Made p C S fun _ =>
      (modify fun s => { s with stack := s.stack.shrink height } : Exec PUnit)
  | modifyFrame (f : Frame → Frame) : Made p C S fun _ => modifyFrame f
  | print (line : String) : Made p C S fun _ =>
      (modify fun s => { s with output := s.output.push line } : Exec PUnit)
  | count (n : Nat) : Made p C S fun _ =>
      (modify fun s => { s with closures := n } : Exec PUnit)
  | store (h : S) (symbol : Symbol) (v : Value) : Made p C S fun _ =>
      (modify fun s => { s with values := s.values.insert symbol v } : Exec PUnit)
  | enter (c : Closure Value) (base : Nat) (args : List Value) (receiver : Option Handle) :
      Made p C S fun l => enter (p.within l) c base args receiver
  | leave (v : Value) : Made p C S fun l => leave (p.within l) v

variable {p : Program} {C S : Prop} {α : Type}

namespace Made

theorem ofOption (found : Option α) (cause : Cause) :
    Made p C S fun _ => Exec.ofOption found cause := by
  cases found with
  | some a => exact .done a
  | none => exact .trap cause

theorem ofExcept (e : Except Cause α) : Made p C S fun _ => Exec.ofExcept e := by
  cases e with
  | ok a => exact .done a
  | error cause => exact .trap cause

/-! ## The stack, locals and captures -/

theorem popMany (n : Nat) : Made p C S fun _ => popMany n := by
  refine .bind .read fun s => ?_
  dsimp only
  split
  · exact .cutAbove _
  · exact .trap _

theorem calleeHeight (args : Nat) : Made p C S fun _ => calleeHeight args := by
  refine .bind .read fun s => ?_
  dsimp only
  split
  · exact .done _
  · exact .trap _

theorem valueAt (height : Nat) : Made p C S fun _ => valueAt height :=
  .bind .read fun _ => .ofOption _ _

theorem getLocal (n : Nat) : Made p C S fun _ => getLocal n := by
  refine .bind .read fun s => ?_
  cases s.frame.slot n with
  | value v => exact .done v
  | cell c => exact .access _
  | empty => exact .trap _

theorem setLocal (n : Nat) (v : Value) : Made p C S fun _ => setLocal n v := by
  refine .bind .read fun s => ?_
  cases s.frame.slot n with
  | cell c => exact .access _
  | value _ | empty => exact .modifyFrame _

theorem promote (n : Nat) : Made p C S fun _ => promote n := by
  have hbind : ∀ v, Made p C S fun _ => promote.bindCell n v := fun v =>
    .bind (.access _) fun c => .bind (.modifyFrame _) fun _ => .done c
  refine .bind .read fun s => ?_
  cases s.frame.slot n with
  | cell c => exact .done c
  | value v => exact hbind v
  | empty => exact hbind .none

theorem captured (n : Nat) : Made p C S fun _ => captured n :=
  .bind .read fun _ => .ofOption _ _

theorem captureAll (captures : List Capture) (cells : Array Handle) :
    Made p C S fun _ => captureAll captures cells := by
  induction captures generalizing cells with
  | nil => exact .done cells
  | cons capture rest ih =>
    obtain ⟨name, n | n⟩ := capture
    · exact .bind (promote _) fun cell => ih (cells.push cell)
    · exact .bind (captured _) fun cell => ih (cells.push cell)

/-! ## Calls -/

theorem resolveChunk (symbol : Symbol) :
    Made p C S fun l => resolveChunk (p.within l) symbol :=
  ofOption (p.chunk? symbol) _

theorem replaceAbove (h : C) (height : Nat) (op : Host Value) :
    Made p C S fun l => replaceAbove (p.within l) height op :=
  .bind (.shrink height) fun _ => .bind (.host h op) fun v => .push v

theorem callMethod (h : C) (ref : Handle) (method : Symbol) (height : Nat) :
    Made p C S fun l => callMethod (p.within l) ref method height := by
  refine .bind (.cutAbove _) fun args => ?_
  split
  · exact replaceAbove h height _
  · exact .bind (resolveChunk method) fun chunk => .enter _ _ _ _

theorem construct (h : C) (type : StructType) (height : Nat) :
    Made p C S fun l => construct (p.within l) type height := by
  refine .bind (.cutAbove _) fun args => ?_
  split
  · exact replaceAbove h height (Collection.construct p.types type.name args)
  refine .bind (.access _) fun ref => ?_
  cases type.initializer with
  | some init => exact .bind (resolveChunk init) fun chunk => .enter _ _ _ _
  | none =>
    cases args with
    | nil => exact replaceAbove h height _
    | cons => exact .trap _

theorem callBuiltin (h : C) (b : Builtin) (height : Nat) (count : UInt8) :
    Made p C S fun l => callBuiltin (p.within l) b height count := by
  unfold Machine.callBuiltin
  split
  · exact .trap _
  refine .bind (.cutAbove _) fun args => .bind (.shrink height) fun _ =>
    .bind (.host h _) fun r => ?_
  obtain ⟨v, printed⟩ := r
  cases printed with
  | some line => exact .bind (.print line) fun _ => .push v
  | none => exact .push v

theorem callCase (h : C) (case : EnumCase Value) (height : Nat) (count : UInt8) :
    Made p C S fun l => callCase (p.within l) case height count := by
  unfold Machine.callCase
  split
  · exact .trap _
  · exact .bind (.cutAbove _) fun values => replaceAbove h height _

theorem callValue (h : C) (count : UInt8) :
    Made p C S fun l => callValue (p.within l) count := by
  refine .bind (calleeHeight _) fun height => .bind (valueAt height) fun v => ?_
  cases v with
  | closure c => exact .bind (.cutAbove _) fun args => .enter c height args none
  | boundMethod ref method => exact callMethod h ref method height
  | struct type => exact construct h type height
  | builtin b => exact callBuiltin h b height count
  | enumCase case =>
    dsimp only
    split
    · exact callCase h case height count
    · exact .trap _
  | _ => exact .trap _

/-! ## Instructions -/

theorem expectObject (operation : String) (v : Value) :
    Made p C S fun _ => expectObject operation v := by
  cases v with
  | object ref => exact .done ref
  | _ => exact .trap _

theorem constantAt (n : UInt16) : Made p C S fun _ => constantAt n :=
  .bind .read fun _ => .ofOption _ _

theorem symbolAt (n : UInt16) : Made p C S fun _ => symbolAt n :=
  .bind .read fun _ => .ofOption _ _

theorem jump (distance : Int16) : Made p C S fun _ => jump distance := by
  refine .bind .read fun s => ?_
  dsimp only
  split
  · exact .modifyFrame _
  · exact .trap _

theorem getModuleValue (symbol : Symbol) :
    Made p C S fun l => getModuleValue (p.within l) symbol := by
  refine .bind .read fun s => ?_
  cases s.values.get? symbol with
  | some v => exact .push v
  | none =>
    exact .bind (ofOption (p.initializer? symbol) _) fun _ => .bind .read fun _ => .enter _ _ _ _

theorem makeClosure (symbol : Symbol) :
    Made p C S fun l => makeClosure (p.within l) symbol :=
  .bind (resolveChunk symbol) fun _ => .bind (captureAll _ _) fun _ => .bind .read fun _ =>
    .bind (.count _) fun _ => .push _

theorem arithmetic (op : Arithmetic.Operation) :
    Made p C S fun l => arithmetic (p.within l) op :=
  .bind .pop fun _ => .bind .pop fun _ => .bind (ofExcept _) fun v => .push v

theorem associated (n : UInt8) (v : Value) : Made p C S fun _ => associated n v := by
  cases v with
  | enumCase case => exact ofOption _ _
  | _ => exact .trap _

theorem execute (i : Instruction) (ho : i.opcode.operates = true → C)
    (hs : i.opcode = .setModuleValue → S) :
    Made p C S fun l => execute (p.within l) i := by
  obtain ⟨op, x⟩ := i
  cases op
  case constant => exact .bind (constantAt _) fun v => .push v
  case pushNone | pushTrue | pushFalse => exact .push _
  case pop => exact .bind .pop fun _ => .done _
  case getLocal => exact .bind (getLocal _) fun v => .push v
  case setLocal => exact .bind .peek fun v => setLocal _ v
  case defineLocal => exact .bind .pop fun v => .modifyFrame _
  case defineCell => exact .bind .pop fun v => .bind (.access _) fun c => .modifyFrame _
  case getCapture => exact .bind (captured _) fun c => .bind (.access _) fun v => .push v
  case setCapture => exact .bind (captured _) fun c => .bind .peek fun v => .access _
  case getModuleValue => exact .bind (symbolAt _) fun symbol => getModuleValue symbol
  case setModuleValue =>
    exact .bind (symbolAt _) fun symbol => .bind .peek fun v => .store (hs rfl) symbol v
  case getModuleFunction =>
    exact .bind (symbolAt _) fun symbol => .bind (resolveChunk symbol) fun chunk => .push _
  case getStruct =>
    exact .bind (symbolAt _) fun symbol => .bind (ofOption (p.structType? symbol) _)
      fun _ => .push _
  case getBuiltin =>
    exact .bind (symbolAt _) fun symbol => .bind (ofOption _ _) fun _ => .push _
  case getSelf =>
    refine .bind .read fun s => ?_
    split
    · exact .bind (getLocal _) fun v => .push v
    · exact .trap _
  case makeClosure => exact .bind (symbolAt _) fun symbol => makeClosure symbol
  case call => exact callValue (ho rfl) x
  case callChunk =>
    exact .bind (symbolAt _) fun symbol => .bind (resolveChunk symbol) fun chunk =>
      .bind .read fun s => .enter _ _ _ _
  case invokeMethod =>
    exact .bind (symbolAt _) fun method => .bind (calleeHeight _) fun height =>
      .bind (valueAt height) fun v => .bind (expectObject _ v) fun ref =>
        callMethod (ho rfl) ref method height
  case getMethod =>
    exact .bind (symbolAt _) fun method => .bind .pop fun v => .bind (expectObject _ v) fun ref =>
      .push _
  case ret => exact .done _
  case getProperty =>
    exact .bind .pop fun v => .bind (expectObject _ v) fun ref => .bind (.access _) fun v => .push v
  case setProperty =>
    exact .bind .pop fun v => .bind (expectObject _ v) fun ref => .bind .peek fun v => .access _
  case initArray =>
    exact .bind (popMany _) fun vs =>
      .bind (.host (ho rfl) (Collection.Array.create p.types.array vs)) fun v => .push v
  case initDict =>
    exact .bind (popMany _) fun vs =>
      .bind (.host (ho rfl) (Collection.Dictionary.create p.types.dictionary (pairs vs))) fun v =>
        .push v
  case get =>
    exact .bind .pop fun index => .bind .pop fun receiver => .bind (.host (ho rfl) _) fun v =>
      .push v
  case setSubscript =>
    exact .bind .pop fun index => .bind .pop fun receiver => .bind .peek fun v => .host (ho rfl) _
  case add | subtract | multiply | divide | modulo | less | greater | lessEqual | greaterEqual =>
    exact arithmetic _
  case negate => exact .bind .pop fun v => .bind (ofExcept _) fun v => .push v
  case not => exact .bind .pop fun v => .push _
  case equal | notEqual => exact .bind .pop fun b => .bind .pop fun a => .push _
  case jump | loop => exact jump x
  case jumpIfFalse =>
    refine .bind .pop fun v => ?_
    split
    · exact jump x
    · exact .done _
  case matchCase => exact .bind (symbolAt _) fun owner => .bind .pop fun v => .push _
  case getAssociated => exact .bind .pop fun v => .bind (associated x v) fun v => .push v

theorem carryOut (i : Instruction) (ho : i.opcode.operates = true → C)
    (hs : i.opcode = .setModuleValue → S) :
    Made p C S fun l => if i.opcode = .ret then do Machine.leave (p.within l) (← Machine.pop)
      else do
        Machine.execute (p.within l) i
        return none := by
  split
  · exact .bind .pop fun v => .leave v
  · exact .bind (execute i ho hs) fun _ => .done none

end Made

end Machine

end StackCode
