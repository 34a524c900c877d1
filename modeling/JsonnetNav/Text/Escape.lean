import JsonnetNav.Text.Basic

/-! # Backslash escapes in string literals

The literal is read byte by byte in its UTF-8 form. A byte outside of an escape
stands for the code point of that number; an escape stands for the code point it
spells. A backslash before any other byte is kept.
-/

namespace JsonnetNav.Text.Escape

/-- The value of a hexadecimal digit. -/
def hexValue? (b : UInt8) : Option Nat :=
  let n := b.toNat
  if 0x30 ≤ n ∧ n ≤ 0x39 then some (n - 0x30)
  else if 0x61 ≤ n ∧ n ≤ 0x66 then some (n - 0x61 + 10)
  else if 0x41 ≤ n ∧ n ≤ 0x46 then some (n - 0x41 + 10)
  else none

/-- The number spelled by exactly `count` hexadecimal digits, and the rest. -/
def hexNumber? : (count : Nat) → (sofar : Nat) → List UInt8 → Option (Nat × List UInt8)
  | 0, sofar, rest => some (sofar, rest)
  | _ + 1, _, [] => none
  | count + 1, sofar, b :: rest =>
    match hexValue? b with
    | some d => hexNumber? count (16 * sofar + d) rest
    | none => none

/-- The value of an octal digit. -/
def octalValue? (b : UInt8) : Option Nat :=
  if 0x30 ≤ b.toNat ∧ b.toNat ≤ 0x37 then some (b.toNat - 0x30) else none

/-- Up to `count` more octal digits after a number, and the rest. -/
def octalNumber : (count : Nat) → (sofar : Nat) → List UInt8 → Nat × List UInt8
  | 0, sofar, rest => (sofar, rest)
  | _ + 1, sofar, [] => (sofar, [])
  | count + 1, sofar, b :: rest =>
    match octalValue? b with
    | some d => octalNumber count (8 * sofar + d) rest
    | none => (sofar, b :: rest)

/-- The one-letter escapes, by the byte after the backslash. -/
def letter? (b : UInt8) : Option CodePoint :=
  match b.toNat with
  | 0x5C => some 0x5C
  | 0x27 => some 0x27
  | 0x22 => some 0x22
  | 0x61 => some 0x07
  | 0x62 => some 0x08
  | 0x66 => some 0x0C
  | 0x6E => some 0x0A
  | 0x72 => some 0x0D
  | 0x74 => some 0x09
  | 0x76 => some 0x0B
  | _ => none

/-- How many hexadecimal digits follow the byte after the backslash. -/
def hexCount? (b : UInt8) : Option Nat :=
  match b.toNat with
  | 0x78 => some 2
  | 0x75 => some 4
  | 0x55 => some 8
  | _ => none

/-- What the bytes after a backslash stand for, and the bytes that follow.
    `none` if the escape is malformed. -/
def afterBackslash? : List UInt8 → Option (Text × List UInt8)
  | [] => none
  | b :: rest =>
    match letter? b, hexCount? b, octalValue? b with
    | some p, _, _ => some ([p], rest)
    | none, some count, _ =>
      match hexNumber? count 0 rest with
      | some (n, rest) => if h : n < 0x110000 then some ([⟨n, h⟩], rest) else none
      | none => none
    | none, none, some d =>
      let (n, rest) := octalNumber 2 d rest
      some ([Fin.ofNat _ n], rest)
    | none, none, none =>
      if b.toNat = 0x0A then some ([], rest)
      else if b.toNat = 0x4E then none
      else some ([0x5C, CodePoint.ofByte b], rest)

theorem hexNumber?_length {count sofar : Nat} {bytes rest : List UInt8} {n : Nat}
    (h : hexNumber? count sofar bytes = some (n, rest)) : rest.length ≤ bytes.length := by
  fun_induction hexNumber? count sofar bytes with
  | case1 => simp_all
  | case2 => simp at h
  | case3 _ _ _ _ _ _ ih => exact Nat.le_succ_of_le (ih h)
  | case4 => simp at h

theorem octalNumber_length (count sofar : Nat) (bytes : List UInt8) :
    (octalNumber count sofar bytes).2.length ≤ bytes.length := by
  fun_induction octalNumber count sofar bytes with
  | case1 => simp
  | case2 => simp
  | case3 _ _ _ _ _ _ ih => exact Nat.le_succ_of_le ih
  | case4 => simp

theorem afterBackslash?_length {bytes rest : List UInt8} {t : Text}
    (h : afterBackslash? bytes = some (t, rest)) : rest.length < bytes.length := by
  cases bytes with
  | nil => simp [afterBackslash?] at h
  | cons b bytes =>
    simp only [afterBackslash?] at h
    split at h
    · simp_all
    · split at h
      · rename_i hn
        split at h
        · have := hexNumber?_length hn
          simp only [Option.some.injEq, Prod.mk.injEq] at h
          rw [← h.2, List.length_cons]
          omega
        · simp at h
      · simp at h
    · have := octalNumber_length 2 (by assumption) bytes
      simp only [Option.some.injEq, Prod.mk.injEq] at h
      rw [← h.2]
      exact Nat.lt_succ_of_le this
    · split at h
      · simp_all
      · split at h
        · simp at h
        · simp_all

/-- The text that bytes with escapes stand for. -/
def decodeBytes? : List UInt8 → Option Text
  | [] => some []
  | b :: rest =>
    if b.toNat = 0x5C then
      match _h : afterBackslash? rest with
      | some (t, rest') => (decodeBytes? rest').map (t ++ ·)
      | none => none
    else (decodeBytes? rest).map (CodePoint.ofByte b :: ·)
termination_by bytes => bytes.length
decreasing_by
  · have := afterBackslash?_length _h
    simp; omega
  · simp

/-- The text that the content of a string literal stands for; `none` if an
    escape in it is malformed. -/
def decode? (content : String) : Option Text :=
  decodeBytes? (content.toList.flatMap String.utf8EncodeChar)

end JsonnetNav.Text.Escape
