import EntryPoints.Proofs.Text

/-!
# The bytes of a text

The bytes of a text are those of its characters one after another. A character has one to four of
them. The first is below 0x80 or not below 0xC0, the others lie between, so a byte below 0x80 is a
character of its own.
-/

set_option autoImplicit false

namespace EntryPoints.Text

theorem bytes_eq (s : String) : bytes s = s.toList.flatMap String.utf8EncodeChar := by
  rw [bytes, ← String.utf8Encode_toList, List.utf8Encode, List.toList_data_toByteArray]

theorem bytes_append (s t : String) : bytes (s ++ t) = bytes s ++ bytes t := by
  rw [bytes_eq, bytes_eq, bytes_eq, String.toList_append, List.flatMap_append]

/-- A byte of a character after its first, with the last six bits of a number. -/
def tail (n : Nat) : UInt8 := UInt8.ofNat (n % 64 + 0x80)

/-- The bound is a numeral, as linear arithmetic needs it. -/
theorem toNat_byte (n : Nat) (h : n < 256) : (UInt8.ofNat n).toNat = n :=
  UInt8.toNat_ofNat_of_lt' h

theorem toNat_tail (n : Nat) : (tail n).toNat = n % 64 + 0x80 :=
  toNat_byte _ (by omega)

/-- The bytes of a character, by how many its code needs. -/
inductive Encoded (c : Char) : Prop where
  | one (below : c.toNat < 0x80) (bytes : String.utf8EncodeChar c = [UInt8.ofNat c.toNat])
  | two (above : 0x80 ≤ c.toNat) (below : c.toNat < 0x800)
      (bytes : String.utf8EncodeChar c = [UInt8.ofNat (c.toNat / 64 + 0xC0), tail c.toNat])
  | three (above : 0x800 ≤ c.toNat) (below : c.toNat < 0x10000)
      (bytes : String.utf8EncodeChar c = [UInt8.ofNat (c.toNat / 64 / 64 + 0xE0),
        tail (c.toNat / 64), tail c.toNat])
  | four (above : 0x10000 ≤ c.toNat)
      (bytes : String.utf8EncodeChar c = [UInt8.ofNat (c.toNat / 64 / 64 / 64 + 0xF0),
        tail (c.toNat / 64 / 64), tail (c.toNat / 64), tail c.toNat])

theorem char_lt (c : Char) : c.toNat < 0x110000 := by
  have hvalid : c.toNat < 0xD800 ∨ 0xDFFF < c.toNat ∧ c.toNat < 0x110000 := c.valid
  omega

theorem encoded (c : Char) : Encoded c := by
  have hlt := char_lt c
  have hcode : c.val.toNat = c.toNat := rfl
  have hbytes := String.utf8EncodeChar.eq_1 c
  simp only [hcode] at hbytes
  by_cases h1 : c.toNat < 0x80
  · rw [if_pos (by omega)] at hbytes
    exact .one h1 hbytes
  rw [if_neg (by omega)] at hbytes
  by_cases h2 : c.toNat < 0x800
  · rw [if_pos (by omega), show c.toNat / 64 % 32 = c.toNat / 64 by omega] at hbytes
    exact .two (by omega) h2 hbytes
  rw [if_neg (by omega)] at hbytes
  by_cases h3 : c.toNat < 0x10000
  · rw [if_pos (by omega), show c.toNat / 4096 % 16 = c.toNat / 64 / 64 by omega] at hbytes
    exact .three (by omega) h3 hbytes
  · rw [if_neg (by omega), show c.toNat / 262144 % 8 = c.toNat / 64 / 64 / 64 by omega,
      show c.toNat / 4096 = c.toNat / 64 / 64 by omega] at hbytes
    exact .four (by omega) hbytes

/-- A character is a byte below 0x80, or it opens with a byte that no other one follows. -/
theorem encoded_shape (c : Char) :
    (c.toNat < 0x80 ∧ String.utf8EncodeChar c = [UInt8.ofNat c.toNat]) ∨
    ∃ lead tails, String.utf8EncodeChar c = lead :: tails ∧ 0xC0 ≤ lead.toNat ∧
      ∀ b ∈ tails, 0x80 ≤ b.toNat := by
  have hlt := char_lt c
  have htail : ∀ n, 0x80 ≤ (tail n).toNat := by
    intro n
    rw [toNat_tail]
    omega
  have hlead : ∀ n, 0xC0 ≤ n → n < 256 → 0xC0 ≤ (UInt8.ofNat n).toNat := by
    intro n hn hn'
    rwa [toNat_byte n hn']
  cases encoded c with
  | one below bytes => exact Or.inl ⟨below, bytes⟩
  | two above below bytes =>
    exact Or.inr ⟨_, _, bytes, hlead _ (by omega) (by omega), by simp [htail]⟩
  | three above below bytes =>
    exact Or.inr ⟨_, _, bytes, hlead _ (by omega) (by omega), by simp [htail]⟩
  | four above bytes =>
    exact Or.inr ⟨_, _, bytes, hlead _ (by omega) (by omega), by simp [htail]⟩

theorem encoded_head (c : Char) : ∃ b rest, String.utf8EncodeChar c = b :: rest ∧
    (b.toNat < 0x80 ∨ 0xC0 ≤ b.toNat) := by
  rcases encoded_shape c with ⟨below, bytes⟩ | ⟨lead, tails, bytes, hlead, -⟩
  · exact ⟨_, _, bytes, Or.inl (by rwa [toNat_byte _ (by omega)])⟩
  · exact ⟨_, _, bytes, Or.inr hlead⟩

theorem char_of_mem (c : Char) (b : UInt8) (h : b ∈ String.utf8EncodeChar c)
    (hb : b.toNat < 0x80) : c.toNat = b.toNat := by
  rcases encoded_shape c with ⟨below, bytes⟩ | ⟨lead, tails, bytes, hlead, htails⟩
  · rw [bytes, List.mem_singleton] at h
    rw [h, toNat_byte _ (by omega)]
  · rw [bytes, List.mem_cons] at h
    rcases h with rfl | hmem
    · omega
    · have hhigh := htails b hmem
      omega

theorem exists_char_of_mem (s : String) (b : UInt8) (h : b ∈ bytes s) (hb : b.toNat < 0x80) :
    ∃ c ∈ s.toList, c.toNat = b.toNat := by
  rw [bytes_eq] at h
  obtain ⟨c, hc, hmem⟩ := List.mem_flatMap.mp h
  exact ⟨c, hc, char_of_mem c b hmem hb⟩

/-- Characters of one byte are numbered as their bytes are. -/
theorem toNat_flatMap (cs : List Char) (h : ∀ c ∈ cs, c.toNat < 0x80) :
    (cs.flatMap String.utf8EncodeChar).map UInt8.toNat = cs.map Char.toNat := by
  induction cs with
  | nil => rfl
  | cons c cs ih =>
    obtain ⟨hc, hcs⟩ := List.forall_mem_cons.mp h
    rw [List.flatMap_cons, List.map_append, ih hcs, List.map_cons]
    cases encoded c with
    | one below bytes =>
      rw [bytes, List.map_singleton, toNat_byte _ (by omega), List.singleton_append]
    | two above => omega
    | three above => omega
    | four above => omega

theorem toNat_bytes (s : String) (h : ∀ c ∈ s.toList, c.toNat < 0x80) :
    (bytes s).map UInt8.toNat = s.toList.map Char.toNat := by
  rw [bytes_eq, toNat_flatMap _ h]

end EntryPoints.Text
