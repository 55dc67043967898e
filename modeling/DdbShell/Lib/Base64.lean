import Mathlib.Tactic.Common

/-!
Base64 with padding. Three bytes become four characters; one or two bytes that
are left become a last group that `=` fills up. The encoder's texts are the
canonical ones, and decoding gives their bytes back.
-/

namespace Base64

/-! ### Six bits -/

/-- The character of a number below 64. -/
def sextetChar (n : Nat) : Char :=
  if n < 26 then Char.ofNat (n + 65)
  else if n < 52 then Char.ofNat (n + 71)
  else if n < 62 then Char.ofNat (n - 4)
  else if n = 62 then '+'
  else '/'

def charSextet (c : Char) : Nat :=
  if 97 ≤ c.toNat then c.toNat - 71
  else if 65 ≤ c.toNat then c.toNat - 65
  else if 48 ≤ c.toNat then c.toNat + 4
  else if c = '+' then 62
  else 63

theorem charSextet_sextetChar_fin : ∀ n : Fin 64, charSextet (sextetChar n) = n := by
  decide

theorem charSextet_sextetChar {n : Nat} (h : n < 64) : charSextet (sextetChar n) = n :=
  charSextet_sextetChar_fin ⟨n, h⟩

theorem sextetChar_plain_fin :
    ∀ n : Fin 64, sextetChar n ≠ '=' ∧ sextetChar n ≠ Char.ofNat 0 := by
  decide

theorem sextetChar_ne_pad {n : Nat} (h : n < 64) : sextetChar n ≠ '=' :=
  (sextetChar_plain_fin ⟨n, h⟩).1

theorem sextetChar_ne_nul {n : Nat} (h : n < 64) : sextetChar n ≠ Char.ofNat 0 :=
  (sextetChar_plain_fin ⟨n, h⟩).2

/-! ### Groups -/

def encodeChars : List UInt8 → List Char
  | [] => []
  | [a] => [sextetChar (a.toNat / 4), sextetChar (a.toNat % 4 * 16), '=', '=']
  | [a, b] =>
      [sextetChar (a.toNat / 4), sextetChar (a.toNat % 4 * 16 + b.toNat / 16),
        sextetChar (b.toNat % 16 * 4), '=']
  | a :: b :: c :: rest =>
      sextetChar (a.toNat / 4) :: sextetChar (a.toNat % 4 * 16 + b.toNat / 16) ::
        sextetChar (b.toNat % 16 * 4 + c.toNat / 64) :: sextetChar (c.toNat % 64) ::
          encodeChars rest

/-- The first byte of two sextets, and so on. -/
def firstByte (m n : Nat) : UInt8 := UInt8.ofNat (m * 4 + n / 16)

def secondByte (m n : Nat) : UInt8 := UInt8.ofNat (m % 16 * 16 + n / 4)

def thirdByte (m n : Nat) : UInt8 := UInt8.ofNat (m % 4 * 64 + n)

def decodeChars : List Char → List UInt8
  | p :: q :: r :: s :: rest =>
      if r = '=' then [firstByte (charSextet p) (charSextet q)]
      else if s = '=' then
        [firstByte (charSextet p) (charSextet q), secondByte (charSextet q) (charSextet r)]
      else
        firstByte (charSextet p) (charSextet q) :: secondByte (charSextet q) (charSextet r) ::
          thirdByte (charSextet r) (charSextet s) :: decodeChars rest
  | _ => []

def encode (bytes : List UInt8) : String := String.ofList (encodeChars bytes)

def decode (text : String) : List UInt8 := decodeChars text.toList

/-- The text of some bytes. -/
def Canonical (text : String) : Prop := ∃ bytes, text = encode bytes

theorem byte_bound (a : UInt8) : a.toNat < 256 := a.toNat_lt

theorem firstByte_eq (a : UInt8) {n : Nat} (h : n < 16) :
    firstByte (a.toNat / 4) (a.toNat % 4 * 16 + n) = a := by
  have hvalue : a.toNat / 4 * 4 + (a.toNat % 4 * 16 + n) / 16 = a.toNat := by omega
  rw [firstByte, hvalue, UInt8.ofNat_toNat]

theorem secondByte_eq (b : UInt8) {m n : Nat} (h : n < 4) :
    secondByte (m * 16 + b.toNat / 16) (b.toNat % 16 * 4 + n) = b := by
  have hbound := byte_bound b
  have hvalue : (m * 16 + b.toNat / 16) % 16 * 16 + (b.toNat % 16 * 4 + n) / 4 = b.toNat := by
    omega
  rw [secondByte, hvalue, UInt8.ofNat_toNat]

theorem thirdByte_eq (c : UInt8) {m : Nat} :
    thirdByte (m * 4 + c.toNat / 64) (c.toNat % 64) = c := by
  have hbound := byte_bound c
  have hvalue : (m * 4 + c.toNat / 64) % 4 * 64 + c.toNat % 64 = c.toNat := by omega
  rw [thirdByte, hvalue, UInt8.ofNat_toNat]

theorem decodeChars_encodeChars (bytes : List UInt8) :
    decodeChars (encodeChars bytes) = bytes := by
  fun_induction encodeChars bytes with
  | case1 => rfl
  | case2 a =>
      have ha := byte_bound a
      have hbyte := firstByte_eq a (n := 0) (by omega)
      rw [Nat.add_zero] at hbyte
      rw [decodeChars, if_pos rfl, charSextet_sextetChar (by omega),
        charSextet_sextetChar (by omega), hbyte]
  | case3 a b =>
      have ha := byte_bound a
      have hb := byte_bound b
      have hfirst := firstByte_eq a (n := b.toNat / 16) (by omega)
      have hsecond := secondByte_eq b (m := a.toNat % 4) (n := 0) (by omega)
      rw [Nat.add_zero] at hsecond
      rw [decodeChars, if_neg (sextetChar_ne_pad (by omega)), if_pos rfl,
        charSextet_sextetChar (by omega), charSextet_sextetChar (by omega),
        charSextet_sextetChar (by omega), hfirst, hsecond]
  | case4 a b c rest ih =>
      have ha := byte_bound a
      have hb := byte_bound b
      have hc := byte_bound c
      have hfirst := firstByte_eq a (n := b.toNat / 16) (by omega)
      have hsecond := secondByte_eq b (m := a.toNat % 4) (n := c.toNat / 64) (by omega)
      have hthird := thirdByte_eq c (m := b.toNat % 16)
      rw [decodeChars, if_neg (sextetChar_ne_pad (by omega)),
        if_neg (sextetChar_ne_pad (by omega)), charSextet_sextetChar (by omega),
        charSextet_sextetChar (by omega), charSextet_sextetChar (by omega),
        charSextet_sextetChar (by omega), hfirst, hsecond, hthird, ih]

theorem decode_encode (bytes : List UInt8) : decode (encode bytes) = bytes := by
  rw [decode, encode, String.toList_ofList, decodeChars_encodeChars]

theorem Canonical.encode_decode {text : String} (h : Canonical text) :
    encode (decode text) = text := by
  obtain ⟨bytes, rfl⟩ := h
  rw [decode_encode]

theorem nul_not_mem_encodeChars (bytes : List UInt8) :
    Char.ofNat 0 ∉ encodeChars bytes := by
  have hpad : Char.ofNat 0 ≠ '=' := by decide
  fun_induction encodeChars bytes with
  | case1 => exact List.not_mem_nil
  | case2 a =>
      have ha := byte_bound a
      have h₁ := sextetChar_ne_nul (n := a.toNat / 4) (by omega)
      have h₂ := sextetChar_ne_nul (n := a.toNat % 4 * 16) (by omega)
      simp [h₁.symm, h₂.symm, hpad]
  | case3 a b =>
      have ha := byte_bound a
      have hb := byte_bound b
      have h₁ := sextetChar_ne_nul (n := a.toNat / 4) (by omega)
      have h₂ := sextetChar_ne_nul (n := a.toNat % 4 * 16 + b.toNat / 16) (by omega)
      have h₃ := sextetChar_ne_nul (n := b.toNat % 16 * 4) (by omega)
      simp [h₁.symm, h₂.symm, h₃.symm, hpad]
  | case4 a b c rest ih =>
      have ha := byte_bound a
      have hb := byte_bound b
      have hc := byte_bound c
      have h₁ := sextetChar_ne_nul (n := a.toNat / 4) (by omega)
      have h₂ := sextetChar_ne_nul (n := a.toNat % 4 * 16 + b.toNat / 16) (by omega)
      have h₃ := sextetChar_ne_nul (n := b.toNat % 16 * 4 + c.toNat / 64) (by omega)
      have h₄ := sextetChar_ne_nul (n := c.toNat % 64) (by omega)
      simp [h₁.symm, h₂.symm, h₃.symm, h₄.symm, ih]

theorem Canonical.nul_not_mem {text : String} (h : Canonical text) :
    Char.ofNat 0 ∉ text.toList := by
  obtain ⟨bytes, rfl⟩ := h
  rw [encode, String.toList_ofList]
  exact nul_not_mem_encodeChars bytes

end Base64
