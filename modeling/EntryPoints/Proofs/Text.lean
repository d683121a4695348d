import Mathlib.Data.List.TakeWhile
import EntryPoints.Text

/-!
# Cutting and trimming

Cutting at a character gives one part more than the character occurs, none of which holds it, and
cutting two texts joined by the character gives the parts of both. Trimming takes off repetitions
of one character and nothing else. A table of rows with different keys holds those rows.
-/

set_option autoImplicit false

namespace EntryPoints.Text

theorem cut_append (c : Char) (s t : String) :
    cut c (s ++ String.singleton c ++ t) = cut c s ++ cut c t := by
  simp [cut, List.splitOn_append_cons_self]

theorem cut_of_not_mem (c : Char) (s : String) (h : c ∉ s.toList) : cut c s = [s] := by
  simp [cut, List.splitOn_eq_singleton h]

theorem length_splitOn (c : Char) (cs : List Char) : (cs.splitOn c).length = cs.count c + 1 := by
  induction cs with
  | nil => simp
  | cons a cs ih =>
    rw [List.splitOn_cons_eq_if_modifyHead, List.count_cons]
    split <;> simp [ih]

theorem length_cut (c : Char) (s : String) : (cut c s).length = count c s + 1 := by
  simp [cut, count, length_splitOn]

theorem not_mem_of_mem_splitOn {α : Type} [DecidableEq α] (c : α) (cs part : List α)
    (h : part ∈ cs.splitOn c) : c ∉ part := by
  induction cs generalizing part with
  | nil =>
    rw [List.splitOn_nil, List.mem_singleton] at h
    simp [h]
  | cons a cs ih =>
    rw [List.splitOn_cons_eq_if_modifyHead] at h
    split at h
    · rcases List.mem_cons.mp h with rfl | hp
      · simp
      · exact ih part hp
    · rename_i ha
      obtain ⟨first, rest, hs⟩ := List.exists_cons_of_ne_nil (List.splitOn_ne_nil c cs)
      rw [hs, List.modifyHead_cons] at h
      have hne : c ≠ a := fun hc => ha (by simp [hc])
      rcases List.mem_cons.mp h with rfl | hp
      · simp [hne, ih first (by simp [hs])]
      · exact ih part (by simp [hs, hp])

/-- A string long enough for a start and an end of it has them side by side. -/
theorem exists_between (front after before back : String) (h : front ++ after = before ++ back)
    (hsize : front.utf8ByteSize + back.utf8ByteSize ≤ (front ++ after).utf8ByteSize) :
    ∃ s, front ++ after = front ++ s ++ back := by
  have hlist : front.toList ++ after.toList = before.toList ++ back.toList := by
    rw [← String.toList_append, ← String.toList_append, h]
  rcases List.append_eq_append_iff.mp hlist with ⟨s, hs, -⟩ | ⟨s, hfront, hback⟩
  · have hbefore : before = front ++ String.ofList s := String.toList_inj.1 (by simp [hs])
    exact ⟨String.ofList s, by rw [h, hbefore]⟩
  · have hsplit : back = String.ofList s ++ after := String.toList_inj.1 (by simp [hback])
    rw [hsplit, String.utf8ByteSize_append, String.utf8ByteSize_append] at hsize
    have hempty : String.ofList s = "" := String.utf8ByteSize_eq_zero_iff.mp (by omega)
    exact ⟨"", by rw [hsplit, hempty, String.empty_append, String.append_empty]⟩

theorem trimEnd_append (c : Char) (s : String) :
    ∃ n, s = trimEnd c s ++ String.ofList (List.replicate n c) := by
  have hall : ∀ a ∈ s.toList.reverse.takeWhile (· == c), a = c := by
    intro a ha
    simpa using List.mem_takeWhile_imp ha
  have hs := congrArg List.reverse
    (List.takeWhile_append_dropWhile (p := (· == c)) (l := s.toList.reverse))
  rw [List.eq_replicate_of_mem hall, List.reverse_append, List.reverse_replicate,
    List.reverse_reverse] at hs
  refine ⟨(s.toList.reverse.takeWhile (· == c)).length, String.toList_inj.1 ?_⟩
  rw [trimEnd, String.toList_append, String.toList_ofList, String.toList_ofList]
  exact hs.symm

theorem trimEnd_of_getLast (c : Char) (s : String) (h : s.toList.getLast? ≠ some c) :
    trimEnd c s = s := by
  apply String.toList_inj.1
  rw [trimEnd, String.toList_ofList]
  rcases List.eq_nil_or_concat s.toList with hnil | ⟨cs, a, hcs⟩
  · rw [hnil]
    rfl
  · rw [hcs, List.concat_eq_append, List.getLast?_concat, ne_eq, Option.some_inj] at h
    simp [hcs, h]

theorem trimEnd_singleton (c : Char) (s : String) :
    trimEnd c (s ++ String.singleton c) = trimEnd c s := by
  simp [trimEnd]

end EntryPoints.Text

namespace EntryPoints.Table

theorem get_ofList {α : Type} (cmp : String → String → Ordering) [Std.TransCmp cmp]
    [Std.LawfulEqCmp cmp] (rows : List (String × α))
    (hrows : rows.Pairwise fun a b => cmp a.1 b.1 ≠ .eq) (k : String) (v : α) :
    (Std.ExtTreeMap.ofList rows cmp)[k]? = some v ↔ (k, v) ∈ rows := by
  constructor
  · intro h
    by_cases hk : k ∈ rows.map Prod.fst
    · obtain ⟨⟨_, w⟩, hmem, rfl⟩ := List.mem_map.mp hk
      rw [Std.ExtTreeMap.getElem?_ofList_of_mem Std.ReflCmp.compare_self hrows hmem] at h
      exact Option.some_inj.mp h ▸ hmem
    · rw [Std.ExtTreeMap.getElem?_ofList_of_contains_eq_false (by simpa using hk)] at h
      simp at h
  · intro h
    exact Std.ExtTreeMap.getElem?_ofList_of_mem Std.ReflCmp.compare_self hrows h

theorem mem_of_insertMany {α : Type} (table : Table α) (rows : List (String × α)) (k : String)
    (v : α) (h : (table.insertMany rows)[k]? = some v) : (k, v) ∈ rows ∨ table[k]? = some v := by
  induction rows generalizing table with
  | nil => exact Or.inr (by simpa using h)
  | cons row rows ih =>
    rw [Std.ExtTreeMap.insertMany_cons] at h
    rcases ih _ h with hmem | hget
    · exact Or.inl (List.mem_cons_of_mem _ hmem)
    · rw [Std.ExtTreeMap.getElem?_insert] at hget
      split at hget
      · rename_i hk
        rw [← Std.LawfulEqCmp.eq_of_compare hk, ← Option.some_inj.mp hget]
        exact Or.inl List.mem_cons_self
      · exact Or.inr hget

/-- Whatever the keys of the rows, what a table of them holds is one of them. -/
theorem mem_of_ofRows {α : Type} (rows : List (String × α)) (k : String) (v : α)
    (h : (ofRows rows)[k]? = some v) : (k, v) ∈ rows := by
  rw [ofRows, Std.ExtTreeMap.ofList_eq_insertMany_empty] at h
  exact (mem_of_insertMany ∅ rows k v h).resolve_right (by simp)

theorem mem_iff {α : Type} (table : Table α) (k : String) :
    k ∈ table ↔ ∃ v, table[k]? = some v := by
  rw [Std.ExtTreeMap.mem_iff_isSome_getElem?, Option.isSome_iff_exists]

end EntryPoints.Table
