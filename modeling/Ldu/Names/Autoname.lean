import Ldu.Names.Alias
import Ldu.Vars.InvariantTemps
import Mathlib.Data.List.Sort

/-!
# Telling names

`compute_autonames` gives locals a telling name for display: the returned local is `result`, an
induction variable is `i`, `j` or `k`, a local is named after the function that produced it, after
the argument it is passed as, or after what all of its assignments have in common. Parameters read
`arg1`, `arg2` and so on.

Every rule asks for names and one routine, `assign`, gives them, so a rule is written as the list
of its requests. The environment variables that switch single rules off are taken not to be set.
-/

namespace Ldu

/-! ### Names -/

/-- The canonical name of a parameter, from its index. -/
def paramName (i : ℕ) : String :=
  "a" ++ toString (i + 1)

/-- The name a parameter is shown under. -/
def argName (i : ℕ) : String :=
  "arg" ++ toString (i + 1)

/-- A wanted name, then its numbered variants. -/
def variants (nm : String) (ks : List ℕ) : List String :=
  nm :: ks.map (nm ++ toString ·)

/-- A local and the names wanted for it, the first choice first. -/
abbrev NameRequest := String × List String

/-! ### What the rules look at -/

namespace Expr

/-- What is left under the casts at the root. -/
def stripCasts : Expr → Expr
  | cast _ _ a => stripCasts a
  | e => e

/-- The name of a variable node. -/
def varName? : Expr → Option String
  | var _ n => some n
  | _ => none

/-- The function a call node names. -/
def callee? : Expr → Option String
  | call _ c _ _ _ | callVia _ c _ _ _ _ => if c.isEmpty then none else some c
  | _ => none

/-- The arguments of a call node. -/
def callArgs : Expr → List Expr
  | call _ _ _ _ args | callVia _ _ _ _ _ args => args
  | _ => []

end Expr

/-- The expressions of a block, in the order the naming passes go through them. -/
def Block.inOrder (b : Block) : List Expr :=
  b.stmts.flatMap Stmt.exprs ++ b.cond.toList ++ b.retValue.toList ++ b.retRaw.toList ++
    b.switchVar.toList ++ b.tailCall.toList

/-- The nodes of all expressions of a block. -/
def Block.nodes (b : Block) : List Expr :=
  b.inOrder.flatMap Expr.nodes

/-- The variables of the body, with repetitions. -/
def varNames (g : List Block) : List String :=
  g.flatMap fun b ↦ b.nodes.filterMap Expr.varName?

/-- The functions the body calls. -/
def callees (g : List Block) : List String :=
  g.flatMap fun b ↦ b.nodes.filterMap Expr.callee?

/-- The variable a statement assigns, and the value under its casts. -/
def Stmt.definition : Stmt → Option (String × Expr)
  | assign (.var _ n) rhs => some (n, rhs.stripCasts)
  | _ => none

/-! ### The rules -/

section Rules

variable (g : List Block)

/-- The variable a block returns, if it returns one. -/
def Block.returnedVar (b : Block) : Option String :=
  if b.hasRetValue then b.retValue.bind fun r ↦ r.stripCasts.varName? else none

/-- Rule (a): the single local that is returned. -/
def resultRequest (usedReturn : Bool) : List NameRequest :=
  let rets := g.filterMap Block.returnedVar
  if usedReturn && !rets.any isParamName then
    match (rets.filter isTempName).eraseDups with
    | [n] => [(n, ["result"])]
    | _ => []
  else []

/-- The names of induction variables, from the outermost loop inwards. -/
def inductionPool : List String :=
  ["i", "j", "k", "l", "m", "n"]

/-- How many other loops the header stands in. -/
def loopDepth (loops : List (ℕ × List ℕ)) (header : ℕ) : ℕ :=
  loops.countP fun l ↦ l.1 != header && l.2.contains header

/-- The order of the pairs of depth and name. -/
def depthNameLE (p q : ℕ × String) : Prop :=
  p.1 < q.1 ∨ p.1 = q.1 ∧ p.2 ≤ q.2

instance : DecidableRel depthNameLE := fun p q ↦
  inferInstanceAs (Decidable (p.1 < q.1 ∨ p.1 = q.1 ∧ p.2 ≤ q.2))

/-- Rule (b): induction variables, by the depth of their loop. -/
def inductionRequests (loops : List (ℕ × List ℕ)) (inductionVars : List (ℕ × String)) :
    List NameRequest :=
  let ivs := (inductionVars.map fun iv ↦ (loopDepth loops iv.1, iv.2)).insertionSort depthNameLE
  ivs.map fun p ↦ (p.2, inductionPool.getD p.1 "i" :: inductionPool)

/-- Functions and the name of what they return. -/
def apiNames : List (String × String) :=
  [("GetModuleHandle", "hModule"), ("LoadLibrary", "hModule"), ("LoadLibraryEx", "hModule"),
    ("GetProcAddress", "pfn"), ("CreateFile", "hFile"), ("FindFirstFile", "hFind"),
    ("CreateThread", "hThread"), ("OpenThread", "hThread"), ("CreateMutex", "hMutex"),
    ("CreateEvent", "hEvent"), ("CreateSemaphore", "hSemaphore"), ("OpenProcess", "hProcess"),
    ("GetCurrentProcess", "hProcess"), ("GetCurrentThread", "hThread"), ("GetStdHandle", "hStd"),
    ("CreateToolhelp32Snapshot", "hSnap"), ("GetProcessHeap", "hHeap"), ("HeapAlloc", "pMem"),
    ("HeapReAlloc", "pMem"), ("VirtualAlloc", "pMem"), ("VirtualAllocEx", "pMem"),
    ("LocalAlloc", "pMem"), ("GlobalAlloc", "pMem"), ("MapViewOfFile", "pView"),
    ("CreateWindowEx", "hWnd"), ("FindWindow", "hWnd"), ("GetForegroundWindow", "hWnd"),
    ("GetActiveWindow", "hWnd"), ("GetDesktopWindow", "hWnd"), ("WindowFromPoint", "hWnd"),
    ("GetDC", "hdc"), ("BeginPaint", "hdc"), ("GetLastError", "dwError"),
    ("GetTickCount", "dwTick"), ("GetCurrentProcessId", "dwPid"), ("GetCurrentThreadId", "dwTid"),
    ("malloc", "buf"), ("calloc", "buf"), ("realloc", "buf"), ("_aligned_malloc", "buf"),
    ("operator_new", "p"), ("operator new", "p"), ("fopen", "fp"), ("_wfopen", "fp"),
    ("fopen_s", "fp"), ("_fsopen", "fp"), ("tmpfile", "fp"), ("freopen", "fp"), ("_strdup", "str"),
    ("strdup", "str"), ("_wcsdup", "str"), ("wcsdup", "str"), ("getenv", "env"),
    ("_wgetenv", "env"), ("socket", "sock"), ("WSASocket", "sock"), ("accept", "hClient"),
    ("CreateFileMapping", "hMapping"), ("OpenFileMapping", "hMapping"), ("OpenService", "hService"),
    ("CreateService", "hService"), ("OpenSCManager", "hSCM"), ("GetDlgItem", "hCtrl"),
    ("GetWindow", "hWndOther"), ("GetParent", "hParent"), ("CreateCompatibleDC", "hdc"),
    ("CreateCompatibleBitmap", "hBmp"), ("CreateSolidBrush", "hBrush"), ("LoadIcon", "hIcon"),
    ("LoadCursor", "hCursor"), ("SysAllocString", "bstr"), ("OpenProcessToken", "hToken"),
    ("OpenThreadToken", "hToken"), ("RegOpenKey", "hKey"), ("RegCreateKey", "hKey"),
    ("RegOpenKeyEx", "hKey")]

/-- The name of a function without the suffix `A` or `W` of its character set. -/
def stripCharset (callee : String) : String :=
  match callee.toList.reverse with
  | c :: d :: cs =>
    if (c == 'A' || c == 'W') && 'a' ≤ d && d ≤ 'z' then String.ofList (d :: cs).reverse
    else callee
  | _ => callee

/-- Rule (c): the local a known function is assigned to. -/
def apiRequest (st : Stmt) : Option NameRequest := do
  let (n, rhs) ← st.definition
  let callee ← rhs.callee?
  let (_, nm) ← apiNames.find? fun a ↦ stripCharset callee == a.1 || callee == a.1
  pure (n, variants nm [2, 3, 4, 5, 6])

/-- Functions, the position of an argument, and the name of what is passed there. -/
def apiArgs : List (String × ℕ × String) :=
  [("memcpy", 0, "Dst"), ("memcpy", 1, "Src"), ("memcpy", 2, "Size"), ("memmove", 0, "Dst"),
    ("memmove", 1, "Src"), ("memmove", 2, "Size"), ("memset", 0, "Dst"), ("memset", 2, "Size"),
    ("memcmp", 0, "Buf1"), ("memcmp", 1, "Buf2"), ("memcmp", 2, "Size"), ("strcpy", 0, "Dst"),
    ("strcpy", 1, "Src"), ("strncpy", 0, "Dst"), ("strncpy", 1, "Src"), ("strncpy", 2, "Size"),
    ("wcscpy", 0, "Dst"), ("wcscpy", 1, "Src"), ("strcat", 0, "Dst"), ("strcat", 1, "Src"),
    ("strlen", 0, "Str"), ("wcslen", 0, "Str"), ("strcmp", 0, "Str1"), ("strcmp", 1, "Str2"),
    ("strncmp", 0, "Str1"), ("strncmp", 1, "Str2"), ("strncmp", 2, "Size"), ("strstr", 0, "Str"),
    ("strchr", 0, "Str"), ("strrchr", 0, "Str"), ("printf", 0, "fmt"), ("wprintf", 0, "fmt"),
    ("fprintf", 1, "fmt"), ("sprintf", 1, "fmt"), ("fwprintf", 1, "fmt"), ("snprintf", 3, "fmt"),
    ("_snprintf", 3, "fmt"), ("wcscmp", 0, "Str1"), ("wcscmp", 1, "Str2"), ("wcscat", 0, "Dst"),
    ("wcscat", 1, "Src"), ("wcsncpy", 0, "Dst"), ("wcsncpy", 1, "Src"), ("wcsncpy", 2, "Size"),
    ("fwrite", 0, "Buf"), ("fwrite", 3, "Stream"), ("fread", 0, "Buf"), ("fread", 3, "Stream"),
    ("qsort", 0, "Base"), ("qsort", 1, "Num"), ("qsort", 2, "Size"), ("VirtualAlloc", 0, "Addr"),
    ("VirtualAlloc", 1, "Size"), ("VirtualProtect", 0, "Addr"), ("VirtualProtect", 1, "Size"),
    ("ReadProcessMemory", 1, "Addr"), ("ReadProcessMemory", 2, "Buf"),
    ("ReadProcessMemory", 3, "Size"), ("WriteProcessMemory", 1, "Addr"),
    ("WriteProcessMemory", 2, "Buf"), ("WriteProcessMemory", 3, "Size"),
    ("CreateThread", 2, "StartAddr"), ("CreateThread", 3, "Param"), ("send", 1, "Buf"),
    ("send", 2, "Len"), ("recv", 1, "Buf"), ("recv", 2, "Len")]

/-- Rule (d): the locals passed to a known function. -/
def argRequests (e : Expr) : List NameRequest :=
  apiArgs.filterMap fun (api, pos, nm) ↦ do
    let callee ← e.callee?
    guard (callee = api)
    let arg ← e.callArgs[pos]?
    let n ← arg.stripCasts.varName?
    pure (n, variants nm [2, 3, 4, 5, 6])

/-- The expressions rule (d) goes through: the copy of the returned value is left out. -/
def Block.scanned (b : Block) : List Expr :=
  b.stmts.flatMap Stmt.exprs ++ b.cond.toList ++ b.retValue.toList ++ b.switchVar.toList ++
    b.tailCall.toList

/-- What an assignment says about the use of a local. -/
inductive Role
  | boolish | strish | incr | bad
  deriving DecidableEq, Repr

/-- The role of `nm` in an assignment, from the value under its casts. -/
def roleOf (nm : String) : Expr → Role
  | .const ty v => if !ty.isFloat && (v == 0 || v == 1) then .boolish else .bad
  | .binary _ .lt _ _ | .binary _ .gt _ _ | .binary _ .le _ _ | .binary _ .ge _ _
  | .binary _ .eq _ _ | .binary _ .ne _ _ => .boolish
  | .str _ text =>
    if !Expr.startsWith text "L\"" && Expr.startsWith text "\"" then .strish else .bad
  | .binary _ .add (.var _ x) (.const ty v) =>
    if x == nm && !ty.isFloat && 0 < v.toInt then .incr else .bad
  | _ => .bad

/-- Rule (e): a local all of whose assignments agree on what it is. -/
def roleRequest (nm : String) : Option NameRequest :=
  let roles := (g.flatMap (·.stmts.filterMap Stmt.definition)).filterMap fun d ↦
    if d.1 = nm then some (roleOf nm d.2) else none
  if roles.contains .bad then none
  else if roles.all (· == .boolish) then some (nm, variants "flag" [2, 3, 4])
  else if roles.all (· == .strish) then some (nm, variants "str" [2, 3, 4])
  -- counting up needs an initial value besides the increments
  else if roles.contains .incr && !roles.all (· == .incr) then
    some (nm, variants "count" [2, 3, 4])
  else none

/-- The assigned locals, in order. -/
def assignedLocals : List String :=
  (((g.flatMap (·.stmts.filterMap Stmt.definition)).map Prod.fst).filter
    isTempName).eraseDups.insertionSort (· ≤ ·)

end Rules

/-! ### The pass -/

/-- The names of stack arrays. They enter `array_locals` from `array_name` as `buf1`, `buf2` and
so on, and from the aggregates of the frame as `s1`, `s2` and so on. -/
structure StackArrays where
  names : List String := []
  spelled : ∀ n ∈ names, ∃ k : ℕ, n = "s" ++ toString k ∨ n = "buf" ++ toString k := by simp

/-- What the naming passes read of a function. -/
structure FunctionBody where
  blocks : List Block
  numParams : ℕ := 0
  usedReturn : Bool := false
  /-- The induction variable of each header of a counting loop. -/
  inductionVars : List (ℕ × String) := []
  /-- The headers of loops, each with the blocks of its loop. -/
  loops : List (ℕ × List ℕ) := []
  arrays : StackArrays := {}
  /-- The blocks by their reverse postorder number, where there is one. Blocks with the same
  number come in any order. -/
  order : List ℕ := List.range blocks.length
  order_perm : order.Perm (List.range blocks.length) := by exact .refl _

namespace FunctionBody

variable (f : FunctionBody)

/-- The canonical names of the parameters. -/
def params : List String :=
  (List.range f.numParams).map paramName

/-- Names in use before the pass: parameters, variables and called functions. -/
def marked : List String :=
  f.params ++ varNames f.blocks ++ callees f.blocks

/-- What rules (a) to (e) ask for. -/
def wishes : List NameRequest :=
  resultRequest f.blocks f.usedReturn ++
    inductionRequests f.loops f.inductionVars ++
    f.blocks.flatMap (·.stmts.filterMap apiRequest) ++
    f.blocks.flatMap (fun b ↦ (b.scanned.flatMap Expr.nodes).flatMap argRequests) ++
    (assignedLocals f.blocks).filterMap (roleRequest f.blocks)

/-- All requests: `assign` turns down what is not a local; rule (g) comes last. -/
def requests : List NameRequest :=
  f.wishes.filter (isTempName ·.1) ++
    (List.range f.numParams).map fun i ↦ (paramName i, [argName i])

/-- The names given and the names in use at the end of `compute_autonames`. -/
def computeAutonames : Naming String :=
  Naming.giveAll ⟨[], f.marked⟩ f.requests

end FunctionBody

end Ldu
