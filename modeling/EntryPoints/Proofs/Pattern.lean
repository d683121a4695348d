import EntryPoints.Pattern
import EntryPoints.Proofs.Text

/-!
# Strings with one star

A string splits into a pattern exactly when it holds one star, and the pattern then spells the
string. What a pattern captures is told by the two ends of a string and by its length in bytes.
-/

set_option autoImplicit false

namespace EntryPoints.Pattern

theorem stars_append (s t : String) : stars (s ++ t) = stars s + stars t := by
  simp [stars, Text.count]

theorem stars_eq_zero_iff (s : String) : stars s = 0 ↔ '*' ∉ s.toList := by
  simp [stars, Text.count, List.count_eq_zero]

/-- No star beside the one that the pattern stands for. -/
def Proper (p : Pattern) : Prop := stars p.front = 0 ∧ stars p.back = 0

theorem stars_text (p : Pattern) : stars p.text = stars p.front + stars p.back + 1 := by
  have hstar : stars "*" = 1 := by decide
  rw [text, stars_append, stars_append, hstar]
  omega

theorem parse?_text (p : Pattern) (h : p.Proper) : parse? p.text = some p := by
  have hcut := Text.cut_append '*' p.front p.back
  rw [Text.cut_of_not_mem '*' p.front ((stars_eq_zero_iff _).mp h.1),
    Text.cut_of_not_mem '*' p.back ((stars_eq_zero_iff _).mp h.2)] at hcut
  change Text.cut '*' p.text = [p.front, p.back] at hcut
  simp [parse?, hcut]

theorem exists_text (s : String) (h : stars s = 1) : ∃ p : Pattern, p.Proper ∧ s = p.text := by
  have hmem : '*' ∈ s.toList := List.count_pos_iff.mp (show 0 < stars s by omega)
  obtain ⟨front, back, hs⟩ := List.append_of_mem hmem
  let p : Pattern := ⟨String.ofList front, String.ofList back⟩
  have htext : s = p.text := String.toList_inj.1 (by simp [p, text, hs])
  have hstars := stars_text p
  rw [← htext, h] at hstars
  exact ⟨p, ⟨by omega, by omega⟩, htext⟩

theorem stars_of_parse? (s : String) (p : Pattern) (h : parse? s = some p) : stars s = 1 := by
  have hlen := Text.length_cut '*' s
  unfold parse? at h
  split at h
  · rename_i front back hcut
    rw [hcut] at hlen
    simpa [stars] using hlen.symm
  · simp at h

theorem parse?_eq_some_iff (s : String) (p : Pattern) :
    parse? s = some p ↔ s = p.text ∧ p.Proper := by
  constructor
  · intro h
    obtain ⟨q, hq, rfl⟩ := exists_text s (stars_of_parse? s p h)
    rw [parse?_text q hq, Option.some_inj] at h
    exact h ▸ ⟨rfl, hq⟩
  · rintro ⟨rfl, hp⟩
    exact parse?_text p hp

theorem parse?_eq_none_iff (s : String) : parse? s = none ↔ stars s ≠ 1 := by
  constructor
  · intro h hs
    obtain ⟨p, hp, rfl⟩ := exists_text s hs
    simp [parse?_text p hp] at h
  · intro h
    by_contra hsome
    obtain ⟨p, hp⟩ := Option.ne_none_iff_exists'.mp hsome
    exact h (stars_of_parse? s p hp)

theorem text_inj (p q : Pattern) (hp : p.Proper) (hq : q.Proper) (h : p.text = q.text) :
    p = q := by
  have hparse := parse?_text p hp
  rw [h, parse?_text q hq] at hparse
  exact (Option.some_inj.mp hparse).symm

theorem fill_inj (p : Pattern) (s t : String) (h : p.fill s = p.fill t) : s = t := by
  have hs := capture?_eq_some_iff.mpr (rfl : p.fill s = p.fill s)
  rw [h, capture?_eq_some_iff.mpr rfl] at hs
  exact (Option.some_inj.mp hs).symm

/-- The front of a pattern starts as the pattern does, as far as there is no star. -/
theorem front_starts (p : Pattern) (lead : String) (hlead : '*' ∉ lead.toList)
    (h : Text.startsWith lead p.text = true) : ∃ rest, p.front = lead ++ rest := by
  obtain ⟨after, hafter⟩ := Text.startsWith_iff.mp h
  have hlist : p.front.toList ++ '*' :: p.back.toList = lead.toList ++ after.toList := by
    simpa [text] using congrArg String.toList hafter
  rcases List.append_eq_append_iff.mp hlist with ⟨more, hmore, hrest⟩ | ⟨more, hmore, -⟩
  · cases more with
    | nil => exact ⟨"", String.toList_inj.1 (by simp [hmore])⟩
    | cons c cs =>
      have hc := (List.cons.inj hrest).1
      exact absurd (by simp [hmore, ← hc]) hlead
  · exact ⟨String.ofList more, String.toList_inj.1 (by simp [hmore])⟩

theorem fill_starts (p : Pattern) (lead s : String) (hlead : '*' ∉ lead.toList)
    (h : Text.startsWith lead p.text = true) : Text.startsWith lead (p.fill s) = true := by
  obtain ⟨rest, hrest⟩ := front_starts p lead hlead h
  rw [Text.startsWith_iff]
  exact ⟨rest ++ s ++ p.back, by rw [fill, hrest]; simp only [String.append_assoc]⟩

theorem stars_fill (p : Pattern) (s : String) (h : p.Proper) : stars (p.fill s) = stars s := by
  rw [fill, stars_append, stars_append, h.1, h.2]
  omega

theorem captureSome?_eq_some_iff (p : Pattern) (v s : String) :
    p.captureSome? v = some s ↔ s ≠ "" ∧ v = p.fill s := by
  rw [captureSome?, Option.filter_eq_some_iff, capture?_eq_some_iff, decide_eq_true_eq, and_comm]

/-- The ends of a string may overlap, so that they match is not enough: the string must be longer
than both together. -/
theorem captureSome?_isSome_iff (p : Pattern) (v : String) :
    (p.captureSome? v).isSome ↔ (∃ rest, v = p.front ++ rest) ∧ (∃ rest, v = rest ++ p.back) ∧
      p.front.utf8ByteSize + p.back.utf8ByteSize < v.utf8ByteSize := by
  rw [Option.isSome_iff_exists]
  constructor
  · rintro ⟨s, hs⟩
    obtain ⟨hne, rfl⟩ := (captureSome?_eq_some_iff p v s).mp hs
    have hpos : s.utf8ByteSize ≠ 0 := fun h => hne (String.utf8ByteSize_eq_zero_iff.mp h)
    refine ⟨⟨s ++ p.back, String.append_assoc ..⟩, ⟨p.front ++ s, rfl⟩, ?_⟩
    simp only [fill, String.utf8ByteSize_append]
    omega
  · rintro ⟨⟨after, hafter⟩, ⟨before, hbefore⟩, hsize⟩
    obtain ⟨s, hs⟩ := Text.exists_between p.front after before p.back (hafter ▸ hbefore)
      (by rw [← hafter]; omega)
    refine ⟨s, (captureSome?_eq_some_iff p v s).mpr ⟨?_, hafter.trans hs⟩⟩
    rintro rfl
    rw [hafter, hs, String.append_empty, String.utf8ByteSize_append] at hsize
    omega

end EntryPoints.Pattern
