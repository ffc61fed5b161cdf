import MinixOS.CheckedExecution
import MinixOS.CommandQueue

/-!
# The tokenizer

The functions of stackstruct.c and the function `tokenizer` of tokenizer.c, which cuts a
command line into commands. A string is the list of its bytes in front of the
terminator, and a character class is that of the C locale. The line is read
backwards at two places: what stands in memory in front of the line is a
parameter, and a read in front of that stops the call. A write behind the end of
the token buffer stops it too.
-/
namespace MinixOS.Tokenizer
open LoopExecution CheckedExecution CommandQueue

/-! ## The stack of parentheses -/

def MAXSIZE : ℕ := 10

/-- What a `char *` of the stack holds: NULL, a character, or the address of `""`. -/
inductive Pointer where
  | null
  | paren (c : UInt8)
  | emptyString
deriving DecidableEq, Repr

structure Stack where
  stackmem : Vector Pointer MAXSIZE
  top : ℤ
deriving DecidableEq, Repr

def screate (s : Stack) : Stack := { s with top := -1 }

def ssize (s : Stack) : ℤ := s.top + 1

def spush (paren : UInt8) (s : Stack) : Except Stop (Stack × List Output) := do
  if s.top = (MAXSIZE : ℤ) - 1 then
    return (s, [.printf "Error: Stack is full.\n"])
  else
    let stackmem ← writeAt s.stackmem (s.top + 1) (.paren paren)
    return ({ stackmem := stackmem, top := s.top + 1 }, [])

def spop (s : Stack) : Except Stop (Stack × Pointer) := do
  if s.top = -1 then
    return (s, .null)
  else
    let temp ← readAt s.stackmem s.top
    let stackmem ← writeAt s.stackmem s.top .emptyString
    return ({ stackmem := stackmem, top := s.top - 1 }, temp)

/-! ## Characters -/

def isspace (c : UInt8) : Bool := c == 32 || (9 ≤ c && c ≤ 13)

def ispunct (c : UInt8) : Bool :=
  (33 ≤ c && c ≤ 47) || (58 ≤ c && c ≤ 64) || (91 ≤ c && c ≤ 96) || (123 ≤ c && c ≤ 126)

def isalnum (c : UInt8) : Bool :=
  (48 ≤ c && c ≤ 57) || (65 ≤ c && c ≤ 90) || (97 ≤ c && c ≤ 122)

/-- The characters the tokenizer compares with. -/
def comma : UInt8 := 44
def newline : UInt8 := 10
def leftParen : UInt8 := 40
def rightParen : UInt8 := 41
def blank : UInt8 := 32

theorem isalnum_facts {c : UInt8} (h : isalnum c) :
    isspace c = false ∧ c ≠ comma ∧ c ≠ newline ∧ c ≠ leftParen ∧ c ≠ rightParen ∧
      ispunct c = false := by
  simp only [isalnum, isspace, ispunct, comma, newline, leftParen, rightParen, Bool.or_eq_true,
    Bool.and_eq_true, decide_eq_true_eq, Bool.or_eq_false_iff, Bool.and_eq_false_iff,
    decide_eq_false_iff_not, beq_eq_false_iff_ne, ne_eq, UInt8.le_iff_toNat_le,
    ← UInt8.toNat_inj, UInt8.reduceToNat] at h ⊢
  omega

theorem ispunct_facts {c : UInt8} (h : ispunct c) : isspace c = false ∧ c ≠ newline := by
  simp only [isspace, ispunct, newline, Bool.or_eq_true,
    Bool.and_eq_true, decide_eq_true_eq, Bool.or_eq_false_iff, Bool.and_eq_false_iff,
    decide_eq_false_iff_not, beq_eq_false_iff_ne, ne_eq, UInt8.le_iff_toNat_le,
    ← UInt8.toNat_inj, UInt8.reduceToNat] at h ⊢
  omega

/-! ## The main loop -/

inductive CharState where
  | error
  | space
  | comma
  | lparen
  | rparen
  | punct
  | alnum
deriving DecidableEq, Repr

/-- The local variables of `tokenizer`, the two global structures, and what was printed. -/
structure Scan where
  state : CharState
  priority : ℤ
  inputvalidity : Bool
  token : List UInt8
  i : ℕ
  stack : Stack
  queue : Queue
  log : List Output
deriving DecidableEq, Repr

/-- The assignments to `token[tokenlen]` and `token[tokenlen+1]`, in a buffer of
`bufferlen + 1` bytes. -/
def appendChar (bufferlen : ℕ) (token : List UInt8) (c : UInt8) : Except Stop (List UInt8) :=
  if token.length + 1 ≤ bufferlen then .ok (token ++ [c])
  else .error (.outOfRange (token.length + 1))

/-- The bytes in front of `argv[i]`, the nearest first. -/
def behind (before argv : List UInt8) (i : ℕ) : List UInt8 := (argv.take i).reverse ++ before

/-- `while(argv[n-1]==')') n--;` from `argv[index]` on: the number of passes, and the
character in front of the parentheses. -/
def skipParens : ℤ → List UInt8 → Except Stop (ℕ × UInt8)
  | index, [] => .error (.outOfRange index)
  | index, c :: front => do
      if c = rightParen then
        let (passes, stop) ← skipParens (index - 1) front
        return (passes + 1, stop)
      else return (0, c)

/-- A branch of the loop body goes on to the check at the end of the body or leaves the loop. -/
inductive Branch where
  | falls (s : Scan)
  | breaks (s : Scan)

section Branches
variable (before argv : List UInt8) (c : UInt8) (s : Scan)

def spaceBranch : Except Stop Branch := do
  if s.state = .comma ∨ s.state = .error ∨ s.state = .space then
    return .falls { s with i := s.i + 1, state := .space }
  else
    let token ← appendChar argv.length s.token blank
    return .falls { s with token := token, i := s.i + 1, state := .space }

def commaBranch : Except Stop Branch := do
  let revpriority := 255 - s.priority
  let queue := if s.inputvalidity then qenqueue s.token revpriority s.queue else s.queue
  let (passes, _) ← skipParens ((s.i : ℤ) - 1) (behind before argv s.i)
  return .falls { s with
    queue := queue, priority := s.priority - passes, token := [], i := s.i + 1, state := .comma }

def leftBranch : Except Stop Branch := do
  let validity :=
    if s.state = .comma ∨ s.state = .lparen ∨ s.state = .error ∨ s.state = .space then
      s.inputvalidity
    else false
  let (stack, printed) ← spush c s.stack
  return .falls { s with
    inputvalidity := validity, stack := stack, log := s.log ++ printed,
    priority := s.priority + 1, state := .lparen, i := s.i + 1 }

def rightBranch : Except Stop Branch := do
  let validity :=
    if s.state = .alnum ∨ s.state = .space ∨ s.state = .comma ∨ s.state = .rparen then
      s.inputvalidity
    else false
  let (stack, popparen) ← spop s.stack
  if popparen ≠ .paren leftParen then
    return .breaks { s with
      stack := stack, inputvalidity := false,
      log := s.log ++ [.printf "Error: Unmatched right parentheses.\n"] }
  else
    return .falls { s with
      stack := stack, inputvalidity := validity, state := .rparen, i := s.i + 1 }

def punctBranch : Except Stop Branch := do
  let token ← appendChar argv.length s.token c
  return .falls { s with token := token, i := s.i + 1, state := .punct }

/-- Behind right parentheses a word may only follow if there is a comma in front of them. -/
def alnumBranch : Except Stop Branch := do
  if s.state = .rparen then
    let (_, stop) ← skipParens ((s.i : ℤ) - 1) (behind before argv s.i)
    if stop ≠ comma then
      return .breaks { s with inputvalidity := false }
    else
      let token ← appendChar argv.length s.token c
      return .falls { s with token := token, i := s.i + 1, state := .alnum }
  else
    let token ← appendChar argv.length s.token c
    return .falls { s with token := token, i := s.i + 1, state := .alnum }

/-- The branches in the order of the source. A character of no class changes nothing. -/
def branch : Except Stop Branch :=
  if isspace c then spaceBranch argv s
  else if c = comma ∨ c = newline then commaBranch before argv s
  else if c = leftParen ∨ c = rightParen then
    if c = leftParen then leftBranch c s else rightBranch s
  else if ispunct c then punctBranch argv c s
  else if isalnum c then alnumBranch before argv c s
  else .ok (.falls s)

end Branches

/-- One pass of the `for` loop, with the check at the end of its body. -/
def scanPass (before argv : List UInt8) (s : Scan) : Pass Scan (Except Stop Scan) :=
  match argv[s.i]? with
  | none => .leave (.ok s)
  | some c =>
      match branch before argv c s with
      | .error stop => .leave (.error stop)
      | .ok (.breaks t) => .leave (.ok t)
      | .ok (.falls t) =>
          if t.inputvalidity = false ∨ t.state = .error then
            .leave (.ok { t with
              log := t.log ++ [.printf "Error in command. Please check the input.\n"] })
          else .again t

def Scan.initial (stack : Stack) (queue : Queue) : Scan :=
  { state := .error, priority := 0, inputvalidity := true, token := [], i := 0,
    stack := stack, queue := queue, log := [] }

/-- The variables at the end, and the node returned with those behind it. -/
structure Outcome where
  scan : Scan
  ret : List QueueNode
deriving DecidableEq, Repr

def tokenizer (fuel : ℕ) (before argv : List UInt8) (stack : Stack) (queue : Queue) :
    Except Stop Outcome := do
  let s ← loop (scanPass before argv) fuel (Scan.initial stack queue)
  let (stack, popparen) ← spop s.stack
  let log :=
    if popparen ≠ .null ∨ s.state = .error then
      s.log ++ [.printf "Error: Unmatched left parenthesis.\n"]
    else s.log
  let scan := { s with stack := stack, log := log }
  return { scan := scan, ret := firstelement scan.queue }

end MinixOS.Tokenizer
