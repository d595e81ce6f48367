import Asyncflow.Core.Manager

/-!
# The manager of the Lua binding

`Asyncflow.LuaManager` is the manager together with the stack of its `lua_State`. A C
function sees the part of the stack that belongs to its own call only, so the stack is kept
as a list of windows, innermost first: the window of the host, and for each script in
progress the window of the C function it is calling.

What the runtime itself pushes and pops is this:

* `LuaManager::RunFlow` pushes the four slots `Asyncflow.LuaManager.frame` before the flow,
  and pops four slots after it;
* `LuaNodeFunc::call` finds its function and the argument `self` by their distance from the
  top, `Asyncflow.LuaManager.call`, and so does `lua_pcall` with the error handler;
* `LuaChart::Return(bool)` pushes the parameter of the callback and leaves it there.

`StackExecutor::ContinueFlow` runs a flow through `StackExecutor::RunFlow`, which is not
virtual. It is called by `Chart::Return` only.
-/

namespace Asyncflow

/-- A value on the Lua stack. -/
inductive LuaValue
  /-- The function `ErrorHandler`. -/
  | errorHandler
  /-- The table `ObjectRef` of the game objects. -/
  | objectTable
  /-- The game object of an agent. -/
  | object (a : AgentId)
  /-- The table `FunctionRef` of the node functions. -/
  | functionTable
  /-- Any value of a script. -/
  | value
deriving DecidableEq, Repr

/-- The manager and the windows of its Lua stack, each with its top first. -/
structure LuaManager where
  /-- The manager. -/
  manager : State := {}
  /-- The windows, innermost first. -/
  stack : List (List LuaValue) := [[]]

/-- An action, and the arguments of the C function that makes the call. -/
structure LuaAct where
  /-- The action. -/
  act : Act
  /-- What a C function finds in its window, top first. -/
  args : List LuaValue := []
deriving DecidableEq, Repr

namespace LuaManager

/-- The slots `LuaManager::RunFlow` pushes for an agent, top first. -/
def frame (a : AgentId) : List LuaValue :=
  [.functionTable, .object a, .objectTable, .errorHandler]

/-- What `LuaNodeFunc::call` works with. -/
structure Call where
  /-- The table of the function, at the index `-1`. -/
  table : Option LuaValue
  /-- The argument, at `-3` after the function has been pushed. -/
  self : Option LuaValue
  /-- The error handler, at `-6` after the argument has been pushed. -/
  handler : Option LuaValue
deriving DecidableEq, Repr

/-- `LuaNodeFunc::call`, up to `lua_pcall`. -/
def call (w : List LuaValue) : Call := ⟨w[0]?, w[1]?, w[3]?⟩

/-- Whether a flow is run by `LuaManager::RunFlow`; the frames are those below the flow. -/
def prepares : List Frame → Bool
  | .returning _ :: _ => false
  | _ => true

/-- The start of `RunFlow`. -/
def enterFlow (a : AgentId) (rest : List Frame) (ws : List (List LuaValue)) :
    List (List LuaValue) :=
  if prepares rest then ws.modifyHead (frame a ++ ·) else ws

/-- The end of `RunFlow`. -/
def leaveFlow (rest : List Frame) (ws : List (List LuaValue)) : List (List LuaValue) :=
  if prepares rest then ws.modifyHead (·.drop 4) else ws

/-- The Lua stack after a step of the manager from `s` to `t`. -/
def nextStack (s : State) (x : LuaAct) (t : State) (ws : List (List LuaValue)) :
    List (List LuaValue) :=
  match x.act, s.frames with
  -- The window of the C function that makes the call.
  | .op _, _ => x.args :: ws.tail
  -- `lua_pcall` of a function or of a callback is over.
  | .ret _, _ => ws.tail
  | .done, .callback _ :: _ => ws.tail
  -- When there is nothing to do, the four slots are popped at once.
  | .tau, .enter n :: rest => match t.frames, s.heap.agentOf n with
    | .flow _ _ _ _ :: _, some a => enterFlow a rest ws
    | _, _ => ws
  -- `lua_pcall` of a node function.
  | .tau, .flow _ _ _ _ :: _ => match t.frames with
    | .func _ :: _ => [] :: ws
    | _ => ws
  | .tau, .ended _ _ _ :: rest => if t.frames = rest then leaveFlow rest ws else ws
  | .tau, .flowReturn _ _ :: rest => leaveFlow rest ws
  -- `LuaChart::Return(bool)` pushes `true`, `LuaChart::Return(lua_State*)` does not.
  | .tau, .returning c :: rest =>
    let ws := match rest with
      | .flowReturn _ _ :: _ => ws.modifyHead (.value :: ·)
      | _ => ws
    if t.frames = .callback c :: rest then [] :: ws else ws
  | _, _ => ws

/-- A step. The destructor `LuaAgent::~LuaAgent` calls no script. -/
def step (cfg : Config) (m : LuaManager) (x : LuaAct) : Option LuaManager :=
  match x.act, m.manager.frames with
  | .op _, .release _ :: _ => none
  | _, _ => (m.manager.step cfg x.act).map fun t => ⟨t, nextStack m.manager x t m.stack⟩

end LuaManager

end Asyncflow
