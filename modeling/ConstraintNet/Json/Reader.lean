import ConstraintNet.Number.Double
import ConstraintNet.Refusal
/-!
# Reading JSON

A reader takes a value of a known shape off the front of a text, or tells the
first problem on its way from left to right: the text ends too early, it is no
JSON, or it is JSON of another shape.  A text that breaks off inside a token has
ended; one with the wrong character at a place is malformed; a mismatch is only
told once the value in question was begun as JSON should.

Main facts:

* `length_escape` — an escape takes characters off the text, which is what makes
  `stringBody` end.
-/

namespace ConstraintNet.Json

/-- Takes a value off the front of a text. -/
abbrev Reader (α : Type) := StateT (List Char) (Except Problem) α

namespace Reader

/-- Whether a character may stand between tokens. -/
def isBlank (c : Char) : Bool := c == ' ' || c == '\n' || c == '\t' || c == '\r'

/-- The next character as it is. -/
def look : Reader (Option Char) := do return (← get).head?

/-- The next character that is not blank; blanks before it are taken. -/
def peek : Reader (Option Char) := do
  modify (·.dropWhile isBlank)
  look

/-- The next character that is not blank, which must be there. -/
def need : Reader Char := do
  match ← peek with
  | some c => return c
  | none => throw .ended

/-- Takes one character. -/
def drop : Reader Unit := modify List.tail

/-- Takes one given character, blanks before it included. -/
def expect (c : Char) : Reader Unit := do
  if (← need) = c then drop else throw .malformed

/-- Takes given characters. -/
def literal : List Char → Reader Unit
  | [] => return
  | c :: l => do
    match ← look with
    | none => throw .ended
    | some d => if d = c then do drop; literal l else throw .malformed

/-- Takes the digits in front. -/
def digits : Reader (List Char) := do
  let l ← get
  set (l.dropWhile Char.isDigit)
  return l.takeWhile Char.isDigit

/-- Takes the digits in front, of which there must be one. -/
def someDigits : Reader (List Char) := do
  match ← look with
  | none => throw .ended
  | some c => if c.isDigit then digits else throw .malformed

/-! ## Numbers -/

/-- A number: an integer of at most 64 bits, or any other. -/
inductive Number
  | integer (n : Int)
  | other
deriving DecidableEq, Inhabited

/-- Appends digits to a number as long as it stays within 64 bits, and counts
those left over. -/
def appendDigits (n : Nat) : List Char → Nat × Nat
  | [] => (n, 0)
  | d :: l =>
    let m := 10 * n + (d.toNat - '0'.toNat)
    if m < 0x10000000000000000 then appendDigits m l else (n, l.length + 1)

/-- Whether `n` times a power of ten is too great for double precision. -/
def overflows (n : Nat) (exponent : Int) : Bool :=
  n != 0 && 0 ≤ exponent &&
    (308 < exponent ||
      (Number.nearestNat n).mulOverflows
      (Number.nearestNat (Nat.pow 10 exponent.toNat)))

/-- Takes the exponent of a number, if there is one. -/
def exponent? : Reader (Option Int) := do
  match ← look with
  | some 'e' | some 'E' =>
    drop
    let sign ← look
    if sign = some '+' || sign = some '-' then drop
    let n := Nat.ofDigitChars 10 (← someDigits) 0
    return some (if sign = some '-' then -(n : Int) else n)
  | _ => return none

/-- Takes the decimals of a number, if there are any. -/
def decimals? : Reader (Option (List Char)) := do
  if (← look) = some '.' then
    drop
    return some (← someDigits)
  else return none

/-- The number made of a sign, the digits before the point and what else was
taken. -/
def makeNumber (negative : Bool) (whole : List Char)
    (fraction : Option (List Char)) (exponent : Option Int) :
    Reader Number := do
  let (n, surplus) := appendDigits 0 whole
  if surplus = 0 && fraction.isNone && exponent.isNone then
    if !negative then return .integer n
    else if 0 < n && n ≤ 0x8000000000000000 then return .integer (-n)
    else return .other
  else
    let decimals := fraction.getD []
    let (n, dropped) := appendDigits n decimals
    let shift : Int :=
      surplus - (decimals.length - dropped : Nat) + exponent.getD 0
    let tooGreat := match exponent with
      | some e =>
        if 0x80000000 ≤ e.natAbs then n != 0 && 0 < e else overflows n shift
      | none => overflows n shift
    if tooGreat then throw .malformed else return .other

/-- Takes a number, which begins here. -/
def number : Reader Number := do
  let negative := (← look) = some '-'
  if negative then drop
  let whole ← someDigits
  if whole.head? = some '0' && whole.length != 1 then throw .malformed
  let fraction ← decimals?
  let exponent ← exponent?
  makeNumber negative whole fraction exponent

/-! ## Strings -/

/-- The value of a hexadecimal digit. -/
def hexDigit? (c : Char) : Option Nat :=
  if c.isDigit then some (c.toNat - '0'.toNat)
  else if 'a' ≤ c ∧ c ≤ 'f' then some (c.toNat - 'a'.toNat + 10)
  else if 'A' ≤ c ∧ c ≤ 'F' then some (c.toNat - 'A'.toNat + 10)
  else none

/-- The number of bytes of characters in UTF-8. -/
def byteCount (l : List Char) : Nat := l.foldr (fun c n => c.utf8Size + n) 0

/-- Takes four hexadecimal digits.  The text has ended if fewer than four bytes
are left. -/
def hexFour : List Char → Except Problem (Nat × List Char)
  | a :: b :: c :: d :: l =>
    match hexDigit? a, hexDigit? b, hexDigit? c, hexDigit? d with
    | some a, some b, some c, some d =>
        .ok (((a * 16 + b) * 16 + c) * 16 + d, l)
    | _, _, _, _ => .error .malformed
  | l => if byteCount l < 4 then .error .ended else .error .malformed

/-- Takes the second half of a character that is written as two escapes. -/
def lowerHalf (upper : Nat) : List Char → Except Problem (Char × List Char)
  | [] => .error .ended
  | ['\\'] => .error .ended
  | '\\' :: 'u' :: l =>
    match hexFour l with
    | .error e => .error e
    | .ok (n, l) =>
      if 0xDC00 ≤ n ∧ n < 0xE000 then
        .ok (Char.ofNat (0x10000 + (upper - 0xD800) * 0x400 + (n - 0xDC00)), l)
      else .error .malformed
  | _ => .error .malformed

/-- What a letter behind a backslash stands for. -/
def escaped? (c : Char) : Option Char :=
  [('"', '"'), ('\\', '\\'), ('/', '/'), ('b', '\x08'), ('f', '\x0c'),
    ('n', '\n'), ('r', '\r'), ('t', '\t')].lookup c

/-- Takes an escape, whose backslash was taken.  Where `strict` does not hold,
halves of characters may stand alone. -/
def escape (strict : Bool) : List Char → Except Problem (Char × List Char)
  | [] => .error .ended
  | c :: l =>
    if c = 'u' then
      match hexFour l with
      | .error e => .error e
      | .ok (n, l) =>
        if n < 0xD800 ∨ 0xE000 ≤ n ∨ !strict then .ok (Char.ofNat n, l)
        else if 0xDC00 ≤ n then .error .malformed
        else lowerHalf n l
    else
      match escaped? c with
      | some d => .ok (d, l)
      | none => .error .malformed

/-- Four hexadecimal digits are taken off the text. -/
theorem length_hexFour {l r : List Char} {n : Nat}
    (h : hexFour l = .ok (n, r)) : r.length ≤ l.length := by
  unfold hexFour at h
  split at h
  · split at h
    · cases h
      simp only [List.length_cons]
      omega
    · cases h
  · split at h <;> cases h

/-- Whatever the lower half of a pair takes is taken off the text. -/
theorem length_lowerHalf {l r : List Char} {n : Nat} {c : Char}
    (h : lowerHalf n l = .ok (c, r)) : r.length ≤ l.length := by
  unfold lowerHalf at h
  split at h
  · cases h
  · cases h
  · split at h
    · cases h
    · rename_i h4
      split at h
      · simp only [Except.ok.injEq, Prod.mk.injEq] at h
        have := length_hexFour h4
        rw [← h.2]
        simp only [List.length_cons]
        omega
      · cases h
  · cases h

/-- An escape takes characters off the text. -/
theorem length_escape {strict : Bool} {l r : List Char} {c : Char}
    (h : escape strict l = .ok (c, r)) : r.length < l.length := by
  unfold escape at h
  split at h
  · cases h
  · split at h
    · split at h
      · cases h
      · rename_i h4
        have := length_hexFour h4
        split at h
        · simp only [Except.ok.injEq, Prod.mk.injEq] at h
          rw [← h.2]
          simp only [List.length_cons]
          omega
        · split at h
          · cases h
          · have := length_lowerHalf h
            simp only [List.length_cons]
            omega
    · split at h
      · cases h
        simp
      · cases h

/-- Takes what is left of a string, behind the characters `read`. -/
def stringBody (strict : Bool) (read : List Char) (l : List Char) :
    Except Problem (String × List Char) :=
  match l with
  | [] => .error .ended
  | '"' :: l => .ok (String.ofList read.reverse, l)
  | '\\' :: l =>
    match _h : escape strict l with
    | .error e => .error e
    | .ok (c, l) => stringBody strict (c :: read) l
  | c :: l =>
    if c.toNat < 0x20 then .error .malformed
    else stringBody strict (c :: read) l
termination_by l.length
decreasing_by
  · have := length_escape _h
    simp only [List.length_cons]
    omega
  · simp

/-- Takes a string, whose opening quote is next. -/
def string (strict : Bool) : Reader String := do
  drop
  let (s, l) ← stringBody strict [] (← get)
  set l
  return s

/-! ## Values of a known shape -/

/-- Tells that the value that begins here has another shape, once it has begun
as a value should. -/
def mistyped {α : Type} : Reader α := do
  match ← need with
  | 'n' => literal ['n', 'u', 'l', 'l']
  | 't' => literal ['t', 'r', 'u', 'e']
  | 'f' => literal ['f', 'a', 'l', 's', 'e']
  | '"' => discard (string true)
  | '[' => return ← throw .mismatch
  | '{' => return ← throw .mismatch
  | c => if c = '-' || c.isDigit then discard number else throw .malformed
  throw .mismatch

/-- Takes an integer from `low` to `high`. -/
def integer (low high : Int) : Reader Int := do
  let c ← need
  if c = '-' || c.isDigit then
    match ← number with
    | .integer n => if low ≤ n ∧ n ≤ high then return n else throw .mismatch
    | .other => throw .mismatch
  else mistyped

/-- Takes the word for nothing. -/
def null : Reader Unit := do
  if (← need) = 'n' then literal ['n', 'u', 'l', 'l'] else mistyped

/-- Takes a string where nothing but a string may stand. -/
def name : Reader String := do
  if (← need) = '"' then string true else throw .malformed

/-- Whether another element of an array follows.  A comma before it is taken;
the closing bracket is not. -/
def another (isFirst : Bool) : Reader Bool := do
  let c ← need
  if c = ']' then return false
  else if isFirst then return true
  else if c = ',' then do
    drop
    if (← need) = ']' then throw .malformed else return true
  else throw .malformed

/-- Takes the elements of an array up to its end; `fuel` is more than their
number. -/
def elementsWithin {α : Type} (item : Reader α) :
    Nat → Bool → List α → Reader (List α)
  | 0, _, _ => throw .ended
  | fuel + 1, isFirst, read => do
    if ← another isFirst then
      elementsWithin item fuel false ((← item) :: read)
    else do
      drop
      return read.reverse

/-- Takes an array of like elements. -/
def array {α : Type} (item : Reader α) : Reader (List α) := do
  if (← need) = '[' then
    drop
    elementsWithin item ((← get).length + 1) true []
  else mistyped

/-- Takes an array of two elements. -/
def pair {α β : Type} (first : Reader α) (second : Reader β) :
    Reader (α × β) := do
  if (← need) = '[' then
    drop
    if !(← another true) then throw .mismatch
    let a ← first
    if !(← another false) then throw .mismatch
    let b ← second
    expect ']'
    return (a, b)
  else mistyped

/-- Takes the members of an object up to its end.  `member` is given the name of
a member and takes its colon and its value; `fuel` is more than their number. -/
def membersWithin {α : Type} (member : String → α → Reader α) :
    Nat → Bool → α → Reader α
  | 0, _, _ => throw .ended
  | fuel + 1, isFirst, read => do
    let c ← need
    if c = '}' then do
      drop
      return read
    else do
      if !isFirst then expect ','
      membersWithin member fuel false (← member (← name) read)

/-- Takes a record: an object of named members, or an array of the same values
in their order. -/
def record {α : Type} (empty : α) (member : String → α → Reader α)
    (inOrder : Reader α) : Reader α := do
  match ← need with
  | '{' =>
    drop
    membersWithin member ((← get).length + 1) true empty
  | '[' =>
    drop
    let a ← inOrder
    expect ']'
    return a
  | _ => mistyped

/-- Takes the colon and the value of a member that must not be known yet. -/
def member {α : Type} (known : Option α) (r : Reader α) :
    Reader (Option α) := do
  if known.isSome then throw .mismatch
  expect ':'
  return some (← r)

/-- Takes a tagged value: the tag alone as a string, if it needs no content, or
an object of the tag and its content. -/
def tagged {τ α : Type} (tag : String → Option τ) (bare : τ → Option α)
    (content : τ → Reader α) : Reader α := do
  match ← need with
  | '"' =>
    match (tag (← string true)).bind bare with
    | some a => return a
    | none => throw .mismatch
  | '{' =>
    drop
    match tag (← name) with
    | none => throw .mismatch
    | some t =>
      expect ':'
      let a ← content t
      expect '}'
      return a
  | _ => throw .malformed

/-! ## Values of any shape -/

/-- A list or an object that was begun. -/
inductive Frame
  | list
  | object
deriving DecidableEq, Inhabited

/-- Takes digits where there must be one, whether the text ends or not. -/
def skipDigits : Reader Unit := do
  if (← digits).isEmpty then throw .malformed

/-- Takes a number of any size. -/
def skipNumber : Reader Unit := do
  if (← look) = some '-' then drop
  let whole ← digits
  if whole.isEmpty || whole.head? = some '0' && whole.length != 1 then
    throw .malformed
  if (← look) = some '.' then
    drop
    skipDigits
  match ← look with
  | some 'e' | some 'E' =>
    drop
    let sign ← look
    if sign = some '+' || sign = some '-' then drop
    skipDigits
  | _ => return

/-- Takes the name of a member and its colon. -/
def skipName : Reader Unit := do
  if (← need) = '"' then
    discard (string false)
    expect ':'
  else throw .malformed

/-- Takes what follows a value inside the frames that were begun, up to the next
value or to the end of the outermost frame.  What is answered are the frames
still open, if a value follows. -/
def skipClosers (afterValue : Bool) : List Frame → Reader (Option (List Frame))
  | [] => return none
  | frame :: frames => do
    let c ← need
    if afterValue && c = ',' then do
      drop
      if frame = .object then skipName
      return some (frame :: frames)
    else if c = ']' && frame = .list || c = '}' && frame = .object then do
      drop
      skipClosers true frames
    else if afterValue then throw .malformed
    else do
      if frame = .object then skipName
      return some (frame :: frames)

/-- Takes values until all frames that were begun are closed. -/
def skipWithin : Nat → List Frame → Reader Unit
  | 0, _ => throw .ended
  | fuel + 1, frames => do
    let begun? : Option Frame ← match ← need with
      | 'n' => do literal ['n', 'u', 'l', 'l']; pure none
      | 't' => do literal ['t', 'r', 'u', 'e']; pure none
      | 'f' => do literal ['f', 'a', 'l', 's', 'e']; pure none
      | '"' => do discard (string false); pure none
      | '[' => do drop; pure (some .list)
      | '{' => do drop; pure (some .object)
      | c => do
        if c = '-' || c.isDigit then skipNumber else throw .malformed
        pure none
    match ← skipClosers begun?.isNone (begun?.toList ++ frames) with
    | none => return
    | some frames => skipWithin fuel frames

/-- Takes a value of any shape. -/
def skip : Reader Unit := do skipWithin ((← get).length + 1) []

/-- Reads a whole text. -/
def parse {α : Type} (r : Reader α) (text : String) : Except Problem α := do
  let (a, l) ← r.run text.toList
  match l.dropWhile isBlank with
  | [] => return a
  | _ :: _ => throw .malformed

end Reader

end ConstraintNet.Json
