import EntryPoints.Proofs.Lossy

/-!
# Characters of one byte

A character of one byte that is decoded came from that byte: what is made up for wrong bytes and
what is read from several bytes is none of these. So separators and dots are not conjured up, and
nothing is lost beside them.
-/

set_option autoImplicit false

namespace EntryPoints.Lossy
open Text

/-- A character of one byte, other than NUL. -/
def Single (c : Char) : Prop := 0 < c.toNat ∧ c.toNat < 0x80

instance : DecidablePred Single := fun c =>
  inferInstanceAs (Decidable (0 < c.toNat ∧ c.toNat < 0x80))

theorem replacement_not_single : ¬Single replacement := by decide

theorem toNat_ofNat (n : Nat) (h : n.isValidChar) : (Char.ofNat n).toNat = n := by
  rw [Char.ofNat, dif_pos h]
  rfl

/-- A number that stands for no character makes NUL. -/
theorem ofNat_not_single (n : Nat) (h : 0x80 ≤ n) : ¬Single (Char.ofNat n) := by
  rintro ⟨hpos, hlt⟩
  by_cases hvalid : n.isValidChar
  · rw [toNat_ofNat n hvalid] at hlt
    omega
  · rw [Char.ofNat, dif_neg hvalid] at hpos
    exact absurd hpos (by decide)

theorem toNat_ofNat_byte (b : UInt8) : (Char.ofNat b.toNat).toNat = b.toNat := by
  have hlt := b.toNat_lt
  exact toNat_ofNat _ (Or.inl (by omega))

section Single
variable (state : State) (b : UInt8) (bytes : Bytes) (c : Char)

theorem start_single (hc : c ∈ (start b).1) (h : Single c) : c.toNat = b.toNat := by
  rcases start_cases b with ⟨-, hstart⟩ | hstart | ⟨_, _, _, _, hstart, -⟩
  · rw [hstart, List.mem_singleton] at hc
    rw [hc, toNat_ofNat_byte]
  · rw [hstart, List.mem_singleton] at hc
    exact absurd (hc ▸ h) replacement_not_single
  · simp [hstart] at hc

theorem step_single (hstate : Begun state) (hc : c ∈ (step state b).1) (h : Single c) :
    c.toNat = b.toNat := by
  cases state with
  | idle => exact start_single b c hc h
  | pending missing code low high =>
    rcases pending_cases missing code low high b hstate with ⟨n, hn, hstep⟩ |
      ⟨_, _, _, _, hstep, -⟩ | hstep
    · rw [hstep, List.mem_singleton] at hc
      exact absurd (hc ▸ h) (ofNat_not_single n hn)
    · simp [hstep] at hc
    · rw [hstep, List.mem_cons] at hc
      rcases hc with rfl | hmem
      · exact absurd h replacement_not_single
      · exact start_single b c hmem h

/-- A character of one byte is only there if its byte is. -/
theorem run_single (hstate : Begun state) (hc : c ∈ run state bytes) (h : Single c) :
    ∃ b ∈ bytes, c.toNat = b.toNat := by
  induction bytes generalizing state with
  | nil =>
    cases state with
    | idle => simp [run] at hc
    | pending => exact absurd (List.mem_singleton.mp hc ▸ h) replacement_not_single
  | cons b rest ih =>
    rw [run_cons, List.mem_append] at hc
    rcases hc with hstep | hrest
    · exact ⟨b, List.mem_cons_self, step_single state b c hstate hstep h⟩
    · obtain ⟨a, ha, hcode⟩ := ih (step state b).2 (step_begun state b hstate) hrest
      exact ⟨a, List.mem_cons_of_mem _ ha, hcode⟩

theorem start_singles (hidle : (start b).2 = .idle) (h : ∀ c ∈ (start b).1, Single c) :
    (start b).1.map Char.toNat = [b.toNat] := by
  rcases start_cases b with ⟨-, hstart⟩ | hstart | ⟨_, _, _, _, hstart, -⟩
  · rw [hstart, List.map_singleton, toNat_ofNat_byte]
  · exact absurd (h replacement (by simp [hstart])) replacement_not_single
  · simp [hstart] at hidle

theorem step_singles (hstate : Begun state) (hidle : (step state b).2 = .idle)
    (h : ∀ c ∈ (step state b).1, Single c) :
    state = .idle ∧ (step state b).1.map Char.toNat = [b.toNat] := by
  cases state with
  | idle => exact ⟨rfl, start_singles b hidle h⟩
  | pending missing code low high =>
    rcases pending_cases missing code low high b hstate with ⟨n, hn, hstep⟩ |
      ⟨_, _, _, _, hstep, -⟩ | hstep
    · exact absurd (h (Char.ofNat n) (by simp [hstep])) (ofNat_not_single n hn)
    · simp [hstep] at hidle
    · exact absurd (h replacement (by simp [hstep])) replacement_not_single

/-- If nothing but characters of one byte comes out, their bytes are all there was. -/
theorem run_singles (hstate : Begun state) (h : ∀ c ∈ run state bytes, Single c) :
    state = .idle ∧ (run state bytes).map Char.toNat = bytes.map UInt8.toNat := by
  induction bytes generalizing state with
  | nil =>
    cases state with
    | idle => exact ⟨rfl, rfl⟩
    | pending => exact absurd (h replacement (by simp [run])) replacement_not_single
  | cons b rest ih =>
    rw [run_cons, List.forall_mem_append] at h
    obtain ⟨hidle, hrest⟩ := ih (step state b).2 (step_begun state b hstate) h.2
    obtain ⟨hstart, hb⟩ := step_singles state b hstate hidle h.1
    rw [run_cons, List.map_append, hb, hrest]
    exact ⟨hstart, rfl⟩

end Single

theorem mem_of_mem_decode (bytes : Bytes) (c : Char) (hc : c ∈ (decode bytes).toList)
    (h : Single c) : ∃ b ∈ bytes, c.toNat = b.toNat := by
  rw [decode, String.toList_ofList] at hc
  exact run_single .idle bytes c trivial hc h

theorem eq_bytes_of_decode (bytes : Bytes) (h : ∀ c ∈ (decode bytes).toList, Single c) :
    bytes = Text.bytes (decode bytes) := by
  have hrun := (run_singles .idle bytes trivial (by simpa [decode] using h)).2
  apply (List.map_inj_right fun _ _ => UInt8.toNat_inj.mp).mp
  rw [toNat_bytes _ fun c hc => (h c hc).2, decode, String.toList_ofList, hrun]

end EntryPoints.Lossy
