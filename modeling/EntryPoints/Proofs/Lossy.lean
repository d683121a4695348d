import EntryPoints.Lossy
import EntryPoints.Proofs.Text.Utf8

/-!
# Decoding is exact on text

The decoder reads a character back from its bytes, and a character that it has begun takes in no
byte that could start another one. So a text is decoded to itself, whatever bytes come before or
after its own, and a text starts or ends with another one when its bytes do.
-/

set_option autoImplicit false

namespace EntryPoints

namespace Lossy
open Text

section Lead
variable (b : UInt8)

theorem lead_one (h : b.toNat < 0x80) : lead? b = some (0, b.toNat, 0, 0) := by
  rw [lead?, if_pos (UInt8.lt_iff_toNat_lt.mpr h)]

theorem lead_wrong (h : 0x80 ≤ b.toNat) (h' : b.toNat < 0xC2 ∨ 0xF5 ≤ b.toNat) :
    lead? b = none := by
  simp only [lead?, UInt8.lt_iff_toNat_lt, UInt8.le_iff_toNat_le, Bool.and_eq_true,
    decide_eq_true_eq, beq_iff_eq, ← UInt8.toNat_inj]
  grind

theorem lead_two (h : 0xC2 ≤ b.toNat) (h' : b.toNat < 0xE0) :
    lead? b = some (1, b.toNat - 0xC0, 0x80, 0xBF) := by
  simp only [lead?, UInt8.lt_iff_toNat_lt, UInt8.le_iff_toNat_le, Bool.and_eq_true,
    decide_eq_true_eq]
  grind

theorem lead_three (h : 0xE0 ≤ b.toNat) (h' : b.toNat < 0xF0) :
    lead? b = some (2, b.toNat - 0xE0, if b.toNat = 0xE0 then 0xA0 else 0x80,
      if b.toNat = 0xED then 0x9F else 0xBF) := by
  simp only [lead?, UInt8.lt_iff_toNat_lt, UInt8.le_iff_toNat_le, Bool.and_eq_true,
    decide_eq_true_eq, beq_iff_eq, ← UInt8.toNat_inj]
  grind

theorem lead_four (h : 0xF0 ≤ b.toNat) (h' : b.toNat < 0xF5) :
    lead? b = some (3, b.toNat - 0xF0, if b.toNat = 0xF0 then 0x90 else 0x80,
      if b.toNat = 0xF4 then 0x8F else 0xBF) := by
  simp only [lead?, UInt8.lt_iff_toNat_lt, UInt8.le_iff_toNat_le, Bool.and_eq_true,
    decide_eq_true_eq, beq_iff_eq, ← UInt8.toNat_inj]
  grind

end Lead

theorem run_cons (state : State) (b : UInt8) (rest : Bytes) :
    run state (b :: rest) = (step state b).1 ++ run (step state b).2 rest := by
  cases state <;> rfl

theorem run_one (b : UInt8) (rest : Bytes) (h : b.toNat < 0x80) :
    run .idle (b :: rest) = Char.ofNat b.toNat :: run .idle rest := by
  rw [run_cons, step, start, lead_one b h]
  rfl

theorem run_begin (b : UInt8) (rest : Bytes) (missing code : Nat) (low high : UInt8)
    (h : lead? b = some (missing + 1, code, low, high)) :
    run .idle (b :: rest) = run (.pending missing code low high) rest := by
  rw [run_cons, step, start, h]
  rfl

section Pending
variable (code : Nat) (low high b : UInt8) (rest : Bytes)

theorem run_last (h : low ≤ b ∧ b ≤ high) : run (.pending 0 code low high) (b :: rest) =
    Char.ofNat (code * 64 + (b.toNat - 0x80)) :: run .idle rest := by
  rw [run_cons, step, if_pos (by simpa using h)]
  rfl

theorem run_more (missing : Nat) (h : low ≤ b ∧ b ≤ high) :
    run (.pending (missing + 1) code low high) (b :: rest) =
      run (.pending missing (code * 64 + (b.toNat - 0x80)) 0x80 0xBF) rest := by
  rw [run_cons, step, if_pos (by simpa using h)]
  rfl

theorem run_broken (missing : Nat) (h : ¬(low ≤ b ∧ b ≤ high)) :
    run (.pending missing code low high) (b :: rest) = replacement :: run .idle (b :: rest) := by
  have hstep : step (.pending missing code low high) b =
      (replacement :: (start b).1, (start b).2) := by
    rw [step, if_neg (by simpa using h)]
  rw [run_cons, hstep, run_cons]
  rfl

end Pending

/-- A further byte puts its six bits behind the others. -/
theorem grown (n : Nat) : n / 64 * 64 + ((tail n).toNat - 0x80) = n := by
  rw [toNat_tail]
  omega

theorem tail_between (n : Nat) (low high : UInt8) (h : low.toNat ≤ n % 64 + 0x80)
    (h' : n % 64 + 0x80 ≤ high.toNat) : low ≤ tail n ∧ tail n ≤ high := by
  rw [UInt8.le_iff_toNat_le, UInt8.le_iff_toNat_le, toNat_tail]
  exact ⟨h, h'⟩

theorem tail_any (n : Nat) : 0x80 ≤ tail n ∧ tail n ≤ 0xBF := by
  apply tail_between
  · change 0x80 ≤ n % 64 + 0x80
    omega
  · change n % 64 + 0x80 ≤ 0xBF
    omega

theorem run_char (c : Char) (rest : Bytes) :
    run .idle (String.utf8EncodeChar c ++ rest) = c :: run .idle rest := by
  have hvalid : c.toNat < 0xD800 ∨ 0xDFFF < c.toNat ∧ c.toNat < 0x110000 := c.valid
  cases encoded c with
  | one below bytes =>
    have hbyte := toNat_byte c.toNat (by omega)
    rw [bytes, List.singleton_append, run_one _ _ (by omega), hbyte, Char.ofNat_toNat]
  | two above below bytes =>
    have hbyte := toNat_byte (c.toNat / 64 + 0xC0) (by omega)
    have hlead := lead_two (UInt8.ofNat (c.toNat / 64 + 0xC0)) (by omega) (by omega)
    rw [hbyte, Nat.add_sub_cancel] at hlead
    rw [bytes, List.cons_append, List.singleton_append, run_begin _ _ _ _ _ _ hlead,
      run_last _ _ _ _ _ (tail_any _), grown, Char.ofNat_toNat]
  | three above below bytes =>
    have hbyte := toNat_byte (c.toNat / 64 / 64 + 0xE0) (by omega)
    have hlead := lead_three (UInt8.ofNat (c.toNat / 64 / 64 + 0xE0)) (by omega) (by omega)
    rw [hbyte, Nat.add_sub_cancel] at hlead
    rw [bytes, List.cons_append, List.cons_append, List.singleton_append,
      run_begin _ _ _ _ _ _ hlead, run_more, grown, run_last _ _ _ _ _ (tail_any _), grown,
      Char.ofNat_toNat]
    -- Second bytes that would make an overlong form or a surrogate are out of range.
    exact tail_between _ _ _ (by split <;> simp; omega) (by split <;> simp <;> omega)
  | four above bytes =>
    have hbyte := toNat_byte (c.toNat / 64 / 64 / 64 + 0xF0) (by omega)
    have hlead := lead_four (UInt8.ofNat (c.toNat / 64 / 64 / 64 + 0xF0)) (by omega) (by omega)
    rw [hbyte, Nat.add_sub_cancel] at hlead
    rw [bytes, List.cons_append, List.cons_append, List.cons_append, List.singleton_append,
      run_begin _ _ _ _ _ _ hlead, run_more, grown, run_more _ _ _ _ _ _ (tail_any _), grown,
      run_last _ _ _ _ _ (tail_any _), grown, Char.ofNat_toNat]
    exact tail_between _ _ _ (by split <;> simp; omega) (by split <;> simp <;> omega)

/-- None of the bytes that may come next could start a character, and the code that the least of
them makes is too large for one byte, at once or with any byte more. -/
def Begun : State → Prop
  | .idle => True
  | .pending missing code low high => 0x80 ≤ low.toNat ∧ high.toNat < 0xC0 ∧
      2 ≤ code * 64 + (low.toNat - 0x80) ∧
      (missing = 0 → 0x80 ≤ code * 64 + (low.toNat - 0x80))

/-- A byte is a character of its own, wrong, or the first of several. -/
theorem start_cases (b : UInt8) :
    (b.toNat < 0x80 ∧ start b = ([Char.ofNat b.toNat], .idle)) ∨
    start b = ([replacement], .idle) ∨
    ∃ missing code low high, start b = ([], .pending missing code low high) ∧
      Begun (.pending missing code low high) := by
  by_cases h1 : b.toNat < 0x80
  · exact Or.inl ⟨h1, by rw [start, lead_one b h1]⟩
  by_cases h2 : b.toNat < 0xC2
  · exact Or.inr (Or.inl (by rw [start, lead_wrong b (by omega) (Or.inl h2)]))
  by_cases h3 : b.toNat < 0xE0
  · refine Or.inr (Or.inr ⟨_, _, _, _, by rw [start, lead_two b (by omega) h3], ?_⟩)
    simp [Begun]
    omega
  by_cases h4 : b.toNat < 0xF0
  · refine Or.inr (Or.inr ⟨_, _, _, _, by rw [start, lead_three b (by omega) h4], ?_⟩)
    simp only [Begun]
    split <;> split <;> simp <;> omega
  by_cases h5 : b.toNat < 0xF5
  · refine Or.inr (Or.inr ⟨_, _, _, _, by rw [start, lead_four b (by omega) h5], ?_⟩)
    simp only [Begun]
    split <;> split <;> simp <;> omega
  · exact Or.inr (Or.inl (by rw [start, lead_wrong b (by omega) (Or.inr (by omega))]))

/-- In the middle of a character a byte ends it, goes into it, or breaks it off and starts anew. -/
theorem pending_cases (missing code : Nat) (low high b : UInt8)
    (h : Begun (.pending missing code low high)) :
    (∃ n, 0x80 ≤ n ∧ step (.pending missing code low high) b = ([Char.ofNat n], .idle)) ∨
    (∃ missing' code' low' high', step (.pending missing code low high) b =
      ([], .pending missing' code' low' high') ∧ Begun (.pending missing' code' low' high')) ∨
    step (.pending missing code low high) b = (replacement :: (start b).1, (start b).2) := by
  obtain ⟨hlow, hhigh, hcode, hlast⟩ := h
  by_cases hb : low ≤ b ∧ b ≤ high
  · have hgrown : code * 64 + (low.toNat - 0x80) ≤ code * 64 + (b.toNat - 0x80) := by
      have hle := UInt8.le_iff_toNat_le.mp hb.1
      omega
    cases missing with
    | zero =>
      have hlarge := (hlast rfl).trans hgrown
      exact Or.inl ⟨_, hlarge, by rw [step, if_pos (by simpa using hb)]⟩
    | succ missing =>
      refine Or.inr (Or.inl ⟨_, _, _, _, by rw [step, if_pos (by simpa using hb)], ?_⟩)
      exact ⟨by decide, by decide, by omega, by omega⟩
  · exact Or.inr (Or.inr (by rw [step, if_neg (by simpa using hb)]))

theorem start_begun (b : UInt8) : Begun (start b).2 := by
  rcases start_cases b with ⟨-, h⟩ | h | ⟨_, _, _, _, h, hbegun⟩
  · simp [h, Begun]
  · simp [h, Begun]
  · rw [h]
    exact hbegun

theorem step_begun (state : State) (b : UInt8) (h : Begun state) : Begun (step state b).2 := by
  cases state with
  | idle => exact start_begun b
  | pending missing code low high =>
    rcases pending_cases missing code low high b h with ⟨_, -, hstep⟩ |
      ⟨_, _, _, _, hstep, hbegun⟩ | hstep
    · rw [hstep]
      trivial
    · rw [hstep]
      exact hbegun
    · rw [hstep]
      exact start_begun b

theorem run_chars (cs : List Char) (rest : Bytes) :
    run .idle (cs.flatMap String.utf8EncodeChar ++ rest) = cs ++ run .idle rest := by
  induction cs with
  | nil => rfl
  | cons c cs ih =>
    rw [List.flatMap_cons, List.append_assoc, run_char, ih, List.cons_append]

theorem decode_bytes_append (s : String) (rest : Bytes) :
    decode (bytes s ++ rest) = s ++ decode rest := by
  apply String.toList_inj.1
  rw [bytes_eq, decode, decode, run_chars, String.toList_append, String.toList_ofList,
    String.toList_ofList]

theorem decode_bytes (s : String) : decode (bytes s) = s := by
  have hdecode := decode_bytes_append s []
  rw [List.append_nil] at hdecode
  rw [hdecode]
  exact String.append_empty

theorem text?_eq_some_iff (bytes : Bytes) (text : String) :
    text? bytes = some text ↔ bytes = Text.bytes text := by
  rw [text?, Option.ite_none_right_eq_some, Option.some_inj]
  constructor
  · rintro ⟨hbytes, rfl⟩
    exact hbytes.symm
  · rintro rfl
    rw [decode_bytes]
    exact ⟨rfl, rfl⟩

/-- A character never goes into another one that has been begun. -/
theorem run_boundary (state : State) (hstate : Begun state) (cs : List Char) :
    run state (cs.flatMap String.utf8EncodeChar) = run state [] ++ cs := by
  cases state with
  | idle => simpa [run] using run_chars cs []
  | pending missing code low high =>
    cases cs with
    | nil => rfl
    | cons c cs =>
      obtain ⟨b, rest, hbytes, hb⟩ := encoded_head c
      have hbroken : ¬(low ≤ b ∧ b ≤ high) := by
        rw [UInt8.le_iff_toNat_le, UInt8.le_iff_toNat_le]
        obtain ⟨hlow, hhigh, -⟩ := hstate
        omega
      have hrun := run_chars (c :: cs) []
      rw [List.append_nil, List.flatMap_cons, hbytes, List.cons_append] at hrun
      rw [List.flatMap_cons, hbytes, List.cons_append, run_broken _ _ _ _ _ _ hbroken, hrun]
      simp [run]

theorem run_before (state : State) (hstate : Begun state) (before : Bytes) (cs : List Char) :
    run state (before ++ cs.flatMap String.utf8EncodeChar) = run state before ++ cs := by
  induction before generalizing state with
  | nil => exact run_boundary state hstate cs
  | cons b before ih =>
    rw [List.cons_append, run_cons, run_cons, ih _ (step_begun state b hstate), List.append_assoc]

theorem decode_append_bytes (before : Bytes) (s : String) :
    decode (before ++ bytes s) = decode before ++ s := by
  apply String.toList_inj.1
  rw [bytes_eq, decode, decode, run_before .idle trivial, String.toList_append,
    String.toList_ofList, String.toList_ofList]

end Lossy

namespace Text
open Lossy

/-- A text starts with the bytes of another one just when it starts with its characters. -/
theorem bytes_prefix_iff (s t : String) : bytes s <+: bytes t ↔ ∃ rest, t = s ++ rest := by
  constructor
  · rintro ⟨rest, hrest⟩
    refine ⟨decode rest, ?_⟩
    rw [← decode_bytes_append, hrest, decode_bytes]
  · rintro ⟨rest, rfl⟩
    exact ⟨bytes rest, (bytes_append s rest).symm⟩

theorem bytes_suffix_iff (s t : String) : bytes s <:+ bytes t ↔ ∃ before, t = before ++ s := by
  constructor
  · rintro ⟨before, hbefore⟩
    refine ⟨decode before, ?_⟩
    rw [← decode_append_bytes, hbefore, decode_bytes]
  · rintro ⟨before, rfl⟩
    exact ⟨bytes before, (bytes_append before s).symm⟩

end Text

end EntryPoints
