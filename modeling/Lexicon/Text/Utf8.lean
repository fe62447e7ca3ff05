namespace Lexicon.Text

/-! Bytes as text. What is not UTF-8 is shown as replacement characters, one for
each longest piece that could begin a character. -/

def replacement : Char := '\uFFFD'

def isContinuation (byte : UInt8) : Bool :=
  0x80 ≤ byte && byte ≤ 0xBF

/-- The bytes that can stand behind the lead byte of a character. -/
def isSecond (lead byte : UInt8) : Bool :=
  if lead = 0xE0 then 0xA0 ≤ byte && byte ≤ 0xBF
  else if lead = 0xED then 0x80 ≤ byte && byte ≤ 0x9F
  else if lead = 0xF0 then 0x90 ≤ byte && byte ≤ 0xBF
  else if lead = 0xF4 then 0x80 ≤ byte && byte ≤ 0x8F
  else isContinuation byte

/-- How many bytes a character with this lead byte has; none can begin with it
if the answer is zero. -/
def charWidth (lead : UInt8) : Nat :=
  if lead < 0x80 then 1
  else if lead < 0xC2 then 0
  else if lead < 0xE0 then 2
  else if lead < 0xF0 then 3
  else if lead < 0xF5 then 4
  else 0

/-- The six bits of a continuation byte behind those read so far. -/
def extend (code : Nat) (byte : UInt8) : Nat :=
  code * 0x40 + byte.toNat % 0x40

/-- The first character, and how many bytes behind the lead byte belong to it. -/
def readChar (lead : UInt8) (rest : List UInt8) : Char × Nat :=
  match charWidth lead, rest with
  | 1, _ => (Char.ofNat lead.toNat, 0)
  | 2, second :: _ =>
      if isSecond lead second then
        (Char.ofNat (extend (lead.toNat % 0x20) second), 1)
      else
        (replacement, 0)
  | 3, second :: rest =>
      if isSecond lead second then
        match rest with
        | third :: _ =>
            if isContinuation third then
              (Char.ofNat (extend (extend (lead.toNat % 0x10) second) third), 2)
            else
              (replacement, 1)
        | [] => (replacement, 1)
      else
        (replacement, 0)
  | 4, second :: rest =>
      if isSecond lead second then
        match rest with
        | third :: rest =>
            if isContinuation third then
              match rest with
              | fourth :: _ =>
                  if isContinuation fourth then
                    (Char.ofNat (extend (extend (extend (lead.toNat % 0x08) second) third) fourth),
                      3)
                  else
                    (replacement, 2)
              | [] => (replacement, 2)
            else
              (replacement, 1)
        | [] => (replacement, 1)
      else
        (replacement, 0)
  | _, _ => (replacement, 0)

/-- Reads all bytes; `chars` are the characters before them, the last one first. -/
def readChars (bytes : List UInt8) (chars : List Char) : List Char :=
  match bytes with
  | [] => chars.reverse
  | lead :: rest =>
      let (char, width) := readChar lead rest
      readChars (rest.drop width) (char :: chars)
termination_by bytes.length

def shown (bytes : List UInt8) : String :=
  String.ofList (readChars bytes [])

def bytes (text : String) : List UInt8 :=
  text.toList.flatMap String.utf8EncodeChar

end Lexicon.Text
