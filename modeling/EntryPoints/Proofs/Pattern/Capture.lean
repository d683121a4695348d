import EntryPoints.Proofs.Lossy
import EntryPoints.Proofs.Pattern

/-!
# Capturing and filling undo each other

A text with one star is a pattern. Whatever fills the star is captured again, and what is captured
fills the star with the string it came from. Whether something is captured shows in the bytes of a
string: those of the two ends lie at its ends, and it has more than they have together.
-/

set_option autoImplicit false

namespace EntryPoints.Pattern

/-- The ends are found byte by byte, and no byte belongs to both. -/
theorem captureSome?_isSome_iff_bytes (p : Pattern) (v : String) :
    (p.captureSome? v).isSome = true ↔
      Text.bytes p.front <+: Text.bytes v ∧ Text.bytes p.back <:+ Text.bytes v ∧
        (Text.bytes p.front).length + (Text.bytes p.back).length < (Text.bytes v).length := by
  rw [captureSome?_isSome_iff, Text.bytes_prefix_iff, Text.bytes_suffix_iff, Text.length_bytes,
    Text.length_bytes, Text.length_bytes]

/-- A text with one star is read as a pattern whose captures and fillings undo each other, and that
captures something from exactly the strings that are longer than its two ends and have them. -/
theorem capture_inverse (text : String) (h : stars text = 1) :
    ∃ p, parse? text = some p ∧ text = p.text ∧
      (∀ s, p.capture? (p.fill s) = some s) ∧
      (∀ v s, p.capture? v = some s → p.fill s = v) ∧
      ∀ v, (p.captureSome? v).isSome = true ↔
        Text.bytes p.front <+: Text.bytes v ∧ Text.bytes p.back <:+ Text.bytes v ∧
          (Text.bytes p.front).length + (Text.bytes p.back).length < (Text.bytes v).length := by
  obtain ⟨p, hproper, htext⟩ := exists_text text h
  refine ⟨p, (parse?_eq_some_iff text p).mpr ⟨htext, hproper⟩, htext, ?_, ?_,
    p.captureSome?_isSome_iff_bytes⟩
  · intro s
    exact capture?_eq_some_iff.mpr rfl
  · intro v s hcapture
    exact (capture?_eq_some_iff.mp hcapture).symm

/-- The two ends of this pattern overlap in a string that has both. -/
theorem capture_inverse_overlapping :
    stars "./ä*ä.js" = 1 ∧ ∃ p, parse? "./ä*ä.js" = some p ∧
      p.capture? (p.fill "ä.js*./ä") = some "ä.js*./ä" ∧
      (p.capture? "./ääbä.js" = some "äb" ∧ p.fill "äb" = "./ääbä.js") ∧
      (Text.bytes p.front <+: Text.bytes "./ä.js" ∧ Text.bytes p.back <:+ Text.bytes "./ä.js" ∧
        ¬(p.captureSome? "./ä.js").isSome = true) := by
  have hstars : stars "./ä*ä.js" = 1 := by decide +kernel
  obtain ⟨p, hparse, -, hfill, hcapture, hsome⟩ := capture_inverse "./ä*ä.js" hstars
  have hp : p = ⟨"./ä", "ä.js"⟩ := by
    have hread : parse? "./ä*ä.js" = some ⟨"./ä", "ä.js"⟩ := by decide +kernel
    exact Option.some_inj.mp (hparse.symm.trans hread)
  subst hp
  have hcaptured : capture? ⟨"./ä", "ä.js"⟩ "./ääbä.js" = some "äb" := by decide +kernel
  refine ⟨hstars, _, hparse, hfill _, ⟨hcaptured, hcapture _ _ hcaptured⟩, by decide +kernel,
    by decide +kernel, ?_⟩
  rw [hsome]
  decide +kernel

end EntryPoints.Pattern
