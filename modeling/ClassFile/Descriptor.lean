/-!
# Type descriptors

A field descriptor names a type, and a method descriptor lists the types of the parameters in parentheses and the type
returned behind them. The two scanners here take any text: they look for the borders of the types and check nothing else.
A parameter starts with any number of opening brackets; a class name runs from `L` to the next semicolon; anything else is
one character.
-/

namespace ClassFile.Descriptor

/-- What follows a class name: the text behind the next semicolon. -/
def skipName : List Char → List Char
  | [] => []
  | c :: rest => if c = ';' then rest else skipName rest

/-- A class name with its semicolon, and what follows it. -/
def splitName : List Char → List Char × List Char
  | [] => ([], [])
  | c :: rest => if c = ';' then ([c], rest) else let (name, after) := splitName rest; (c :: name, after)

theorem skipName_length (cs : List Char) : (skipName cs).length ≤ cs.length := by
  induction cs with
  | nil => simp [skipName]
  | cons c rest ih =>
    simp only [skipName]
    split
    · simp
    · simp
      omega

theorem splitName_length (cs : List Char) : (splitName cs).2.length ≤ cs.length := by
  induction cs with
  | nil => simp [splitName]
  | cons c rest ih =>
    simp only [splitName]
    split
    · simp
    · simp
      omega

/-- Slots that the bytes of a character take: one for each. -/
def slotsOfChar (c : Char) : UInt32 :=
  UInt32.ofNat c.utf8Size

/-- What stands behind the opening brackets. -/
def skipBrackets : List Char → List Char
  | [] => []
  | c :: rest => if c = '[' then skipBrackets rest else c :: rest

theorem skipBrackets_length (cs : List Char) : (skipBrackets cs).length ≤ cs.length := by
  induction cs with
  | nil => simp [skipBrackets]
  | cons c rest ih =>
    simp only [skipBrackets]
    split
    · simp
      omega
    · simp

/-- Slots that a value of the type takes which starts a text. -/
def resultSlots : List Char → Nat
  | 'V' :: _ => 0
  | 'J' :: _ => 2
  | 'D' :: _ => 2
  | _ => 1

/-- Slots of the parameters and of the result of a method in one word: the result has the lowest two bits, and the parameters
have the thirty above, beyond which their bits are lost. -/
def packSlots (arguments : UInt32) (result : Nat) : UInt32 :=
  arguments <<< 2 ||| UInt32.ofNat result

/-- Slots of the parameters and of the result, counted from inside the parentheses onto the slots seen so far. -/
def countSlots (slots : UInt32) : List Char → UInt32
  | [] => packSlots slots 0
  | c :: rest =>
    if c = ')' then packSlots slots (resultSlots rest)
    else if c = 'L' then countSlots (slots + 1) (skipName rest)
    else if c = '[' then
      match _h : skipBrackets rest with
      | [] => packSlots (slots + 1) 0
      | e :: after =>
        if e = 'L' then countSlots (slots + 1) (skipName after)
        else countSlots (slots + slotsOfChar e) after
    else if c = 'J' ∨ c = 'D' then countSlots (slots + 2) rest
    else countSlots (slots + slotsOfChar c) rest
  termination_by cs => cs.length
  decreasing_by
    · have := skipName_length rest; simp; omega
    · have := skipBrackets_length rest; have := skipName_length after; simp_all; omega
    · have := skipBrackets_length rest; simp_all; omega
    · simp
    · simp

/-- Slots of the parameters of a method, with one for the receiver, and slots of its result, in one word. -/
def packedSlots (descriptor : String) : UInt32 :=
  match descriptor.toList with
  | [] => packSlots 1 0
  | c :: rest => countSlots (slotsOfChar c) rest

/-- Slots of the parameters of a method, with one for the receiver, and slots of its result. -/
def slots (descriptor : String) : Nat × Nat :=
  ((packedSlots descriptor >>> 2).toNat, (packedSlots descriptor &&& 3).toNat)

/-- Slots of the parameters of a method, with one for the receiver. -/
def argumentSlots (descriptor : String) : Nat :=
  (slots descriptor).1

/-- The type behind the last closing parenthesis, and the whole text if there is none. -/
def returnChars (cs : List Char) : List Char :=
  if ')' ∈ cs then (cs.reverse.takeWhile (· ≠ ')')).reverse else cs

/-- The type that a method returns. -/
def returnType (descriptor : String) : String :=
  String.ofList (returnChars descriptor.toList)

/-- The opening brackets at the start. -/
def takeBrackets : List Char → List Char
  | [] => []
  | c :: rest => if c = '[' then c :: takeBrackets rest else []

/-- The element type that starts a text, and what follows it. -/
def splitElement : List Char → List Char × List Char
  | [] => ([], [])
  | c :: rest => if c = 'L' then let (name, after) := splitName rest; (c :: name, after) else ([c], rest)

theorem splitElement_length (c : Char) (rest : List Char) : (splitElement (c :: rest)).2.length ≤ rest.length := by
  simp only [splitElement]
  split
  · exact splitName_length rest
  · simp

/-- The parameters of a method, from inside the parentheses on. -/
def parameterChars : List Char → List (List Char)
  | [] => []
  | c :: rest =>
    if c = ')' then []
    else
      let brackets := takeBrackets (c :: rest)
      match _h : skipBrackets (c :: rest) with
      | [] => [brackets]
      | e :: after =>
        (brackets ++ (splitElement (e :: after)).1) :: parameterChars (splitElement (e :: after)).2
  termination_by cs => cs.length
  decreasing_by
    have h₁ := skipBrackets_length (c :: rest)
    have h₂ := splitElement_length e after
    simp only [_h, List.length_cons] at h₁ ⊢
    omega

/-- The types of the parameters of a method. -/
def parameterTypes (descriptor : String) : List String :=
  (parameterChars (descriptor.toList.drop 1)).map String.ofList

/-- The text without a closing semicolon, if it has one. -/
def dropSemicolon (cs : List Char) : Option (List Char) :=
  if cs.getLast? = some ';' then some cs.dropLast else none

/-- The name of the class of an object descriptor, and any other descriptor itself. -/
def internalName (descriptor : String) : String :=
  match descriptor.toList with
  | 'L' :: rest => String.ofList ((dropSemicolon rest).getD rest)
  | _ => descriptor

/-- Whether a value of the type takes two slots, as far as its first character says. -/
def startsWide (descriptor : String) : Bool :=
  match descriptor.toList with
  | 'J' :: _ => true
  | 'D' :: _ => true
  | _ => false

end ClassFile.Descriptor
