import EntryPoints.Proofs.Expansion.Rows

/-!
# What a subpath comes to

The result of an expansion, read off one subpath at a time: from the offers, the root and the
answers of the view, without running the rules. A literal offer decides first, a veto second, and
last the most specific pair of patterns that some file makes give the subpath.
-/

set_option autoImplicit false

namespace EntryPoints.Expansion
open Pattern

/-- A withheld name without a star bars itself. One with a star bars what starts and ends like it
and is longer than both its ends. -/
def Bars (name k : String) : Prop :=
  (stars name = 0 ∧ k = name) ∨
  ∃ p : Pattern, p.Proper ∧ name = p.text ∧
    (∃ rest, k = p.front ++ rest) ∧ (∃ rest, k = rest ++ p.back) ∧
    p.front.utf8ByteSize + p.back.utf8ByteSize < k.utf8ByteSize

def Barred (offers : Table Offer) (k : String) : Prop :=
  ∃ name, offers[name]? = some .withheld ∧ Bars name k

/-- The longer pattern goes first, of patterns with as many bytes the bytewise smaller. -/
def Before (s t : String) : Prop :=
  t.utf8ByteSize < s.utf8ByteSize ∨
    t.utf8ByteSize = s.utf8ByteSize ∧ Text.byteOrder s t = .lt

/-- The pair gives the subpath this target, and goes before every other pair that gives it. -/
structure Leads (offers : Table Offer) (root : Path) (view : FileView) (k : String) (rule : Rule)
    (v : String) : Prop where
  declared : Declares offers rule
  yields : rule.Yields root view k v
  first : ∀ other w, Declares offers other → other.Yields root view k w →
    other = rule ∨ Before rule.subpath.text other.subpath.text

inductive Meaning (offers : Table Offer) (root : Path) (view : FileView) (k : String) :
    Option String → Prop
  | literal {t : String} (offer : offers[k]? = some (.target t)) (plain : stars k = 0) :
      Meaning offers root view k (some t)
  | barred (other : ∀ t, offers[k]? = some (.target t) → stars k ≠ 0)
      (barred : Barred offers k) : Meaning offers root view k none
  | expanded {rule : Rule} {v : String} (other : ∀ t, offers[k]? = some (.target t) → stars k ≠ 0)
      (free : ¬Barred offers k) (leads : Leads offers root view k rule v) :
      Meaning offers root view k (some v)
  | absent (other : ∀ t, offers[k]? = some (.target t) → stars k ≠ 0) (free : ¬Barred offers k)
      (unmatched : ∀ rule v, Declares offers rule → ¬rule.Yields root view k v) :
      Meaning offers root view k none

theorem before_iff (s t : String) : specificity s t = .lt ↔ Before s t := by
  rw [specificity, Ordering.then_eq_lt, Nat.compare_eq_lt, Nat.compare_eq_eq, Before]

theorem not_before_before (s t : String) (h : Before s t) : ¬Before t s := by
  rw [← before_iff] at h ⊢
  exact Std.OrientedCmp.not_lt_of_lt h

theorem vetoes_iff (name k : String) (h : stars name ≤ 1) : vetoes name k = true ↔ Bars name k := by
  unfold vetoes Bars
  cases hparse : parse? name with
  | none =>
    have hplain : stars name = 0 := by
      have := (parse?_eq_none_iff name).mp hparse
      omega
    have hno : ∀ p : Pattern, name ≠ p.text := by
      intro p hp
      have := stars_text p
      rw [← hp] at this
      omega
    simp [hplain, hno]
  | some p =>
    obtain ⟨rfl, hp⟩ := (parse?_eq_some_iff name p).mp hparse
    have hstar : stars p.text ≠ 0 := by
      have := stars_text p
      omega
    simp only [captureSome?_isSome_iff, hstar, false_and, false_or]
    constructor
    · intro hk
      exact ⟨p, hp, rfl, hk⟩
    · rintro ⟨q, hq, htext, hk⟩
      rw [text_inj p q hp hq htext]
      exact hk

theorem vetoed_iff (offers : Table Offer) (k : String) (h : firstDefect? offers = none) :
    vetoed offers k = true ↔ Barred offers k := by
  simp only [vetoed, List.any_eq_true, mem_withheld, Barred]
  apply exists_congr
  intro name
  apply and_congr_right
  intro hname
  apply vetoes_iff name k
  exact ((defect_none name _).mp ((firstDefect_none offers).mp h name _ hname)).1

theorem lookup_flatMap_given (root : Path) (view : FileView) (rs : List Rule) (k v : String)
    (hopen : ∀ rule ∈ rs, rule.refusal? root view = none)
    (hordered : rs.Pairwise fun rule other => Before rule.subpath.text other.subpath.text) :
    (rs.flatMap fun rule => rule.given root view).lookup k = some v ↔
      ∃ rule ∈ rs, rule.Yields root view k v ∧ ∀ other ∈ rs, ∀ w, other.Yields root view k w →
        other = rule ∨ Before rule.subpath.text other.subpath.text := by
  induction rs with
  | nil => simp
  | cons rule rs ih =>
    obtain ⟨hfirst, hrest⟩ := List.pairwise_cons.mp hordered
    have hlookup := lookup_given rule root view k
    have htail := ih (fun other ho => hopen other (List.mem_cons_of_mem _ ho)) hrest
    rw [List.flatMap_cons, List.lookup_append]
    -- What the first rule gives hides the rows of the others, all of which come after it.
    cases hrow : (rule.given root view).lookup k with
    | some w =>
      have hw := (hlookup w (hopen rule List.mem_cons_self)).mp hrow
      rw [Option.some_or, Option.some_inj]
      constructor
      · rintro rfl
        refine ⟨rule, List.mem_cons_self, hw, fun other ho _ _ => ?_⟩
        rcases List.mem_cons.mp ho with rfl | ho
        · exact Or.inl rfl
        · exact Or.inr (hfirst other ho)
      · rintro ⟨other, ho, hv, hleads⟩
        rcases List.mem_cons.mp ho with rfl | ho
        · exact yields_unique other root view k w v hw hv
        · rcases hleads rule List.mem_cons_self w hw with rfl | hbefore
          · exact yields_unique rule root view k w v hw hv
          · exact absurd hbefore (not_before_before _ _ (hfirst other ho))
    | none =>
      have hnone : ∀ w, ¬rule.Yields root view k w := by
        intro w hw
        rw [(hlookup w (hopen rule List.mem_cons_self)).mpr hw] at hrow
        simp at hrow
      rw [Option.none_or, htail]
      simp [hnone]

theorem lookup_given_offers (offers : Table Offer) (root : Path) (view : FileView) (k v : String)
    (hopen : ∀ rule ∈ rules offers, rule.refusal? root view = none) :
    (given offers root view).lookup k = some v ↔ ∃ rule, Leads offers root view k rule v := by
  rw [given, lookup_flatMap_given root view _ k v hopen
    ((rules_ordered offers).imp fun h => (before_iff _ _).mp h)]
  constructor
  · rintro ⟨rule, hrule, hv, hfirst⟩
    exact ⟨rule, (mem_rules offers rule).mp hrule, hv,
      fun other w ho hw => hfirst other ((mem_rules offers other).mpr ho) w hw⟩
  · rintro ⟨rule, hrule, hv, hfirst⟩
    exact ⟨rule, (mem_rules offers rule).mpr hrule, hv,
      fun other ho w hw => hfirst other w ((mem_rules offers other).mp ho) hw⟩

theorem lookup_given_none (offers : Table Offer) (root : Path) (view : FileView) (k : String)
    (hopen : ∀ rule ∈ rules offers, rule.refusal? root view = none)
    (h : (given offers root view).lookup k = none) (rule : Rule) (v : String)
    (hrule : Declares offers rule) : ¬rule.Yields root view k v := by
  intro hv
  have hmem := (mem_rules offers rule).mpr hrule
  have hrow : (k, v) ∈ given offers root view :=
    List.mem_flatMap.mpr ⟨rule, hmem, (mem_given rule root view k v (hopen rule hmem)).mpr hv⟩
  simpa using List.lookup_eq_none_iff.mp h (k, v) hrow

theorem leads_unique (offers : Table Offer) (root : Path) (view : FileView) (k : String)
    (rule other : Rule) (v w : String) (hv : Leads offers root view k rule v)
    (hw : Leads offers root view k other w) : v = w := by
  rcases hv.first other w hw.declared hw.yields with rfl | hbefore
  · exact yields_unique other root view k v w hv.yields hw.yields
  · rcases hw.first rule v hv.declared hv.yields with rfl | hafter
    · exact yields_unique rule root view k v w hv.yields hw.yields
    · exact absurd hafter (not_before_before _ _ hbefore)

theorem meaning_unique (offers : Table Offer) (root : Path) (view : FileView) (k : String)
    (a b : Option String) (ha : Meaning offers root view k a) (hb : Meaning offers root view k b) :
    a = b := by
  cases ha with
  | literal offer plain =>
    cases hb with
    | literal offer' =>
      rw [offer, Option.some_inj, Offer.target.injEq] at offer'
      rw [offer']
    | barred other | expanded other | absent other => exact absurd plain (other _ offer)
  | barred other barred =>
    cases hb with
    | literal offer plain => exact absurd plain (other _ offer)
    | barred => rfl
    | expanded _ free | absent _ free => exact absurd barred free
  | expanded other free leads =>
    cases hb with
    | literal offer plain => exact absurd plain (other _ offer)
    | barred _ barred => exact absurd barred free
    | expanded _ _ leads' => rw [leads_unique offers root view k _ _ _ _ leads leads']
    | absent _ _ unmatched => exact absurd leads.yields (unmatched _ _ leads.declared)
  | absent other free unmatched =>
    cases hb with
    | literal offer plain => exact absurd plain (other _ offer)
    | barred _ barred => exact absurd barred free
    | expanded _ _ leads => exact absurd leads.yields (unmatched _ _ leads.declared)
    | absent => rfl

theorem meaning_of_expand (offers : Table Offer) (root : Path) (view : FileView)
    (flat : Table String) (h : expand offers (some root) view = .ok flat) (k : String) :
    Meaning offers root view k flat[k]? := by
  obtain ⟨hsound, hopen, hget⟩ := expand_ok offers root view flat h
  rw [hget k]
  cases hliteral : (literals offers)[k]? with
  | some t =>
    obtain ⟨hoffer, hplain⟩ := (literals_get offers k t).mp hliteral
    exact .literal hoffer hplain
  | none =>
    have hother : ∀ t, offers[k]? = some (.target t) → stars k ≠ 0 := by
      intro t hoffer hplain
      rw [(literals_get offers k t).mpr ⟨hoffer, hplain⟩] at hliteral
      simp at hliteral
    rw [Option.none_or]
    by_cases hbarred : vetoed offers k = true
    · rw [if_pos hbarred]
      exact .barred hother ((vetoed_iff offers k hsound).mp hbarred)
    · rw [if_neg hbarred]
      rw [vetoed_iff offers k hsound] at hbarred
      cases hlookup : (given offers root view).lookup k with
      | none => exact .absent hother hbarred (lookup_given_none offers root view k hopen hlookup)
      | some v =>
        obtain ⟨rule, hleads⟩ := (lookup_given_offers offers root view k v hopen).mp hlookup
        exact .expanded hother hbarred hleads

section Sources
variable (offers : Table Offer) (root : Path) (view : FileView) (flat : Table String)

/-- A subpath is in a result for its literal offer, or for a row that nothing bars. -/
theorem present_iff (h : expand offers (some root) view = .ok flat) (k : String) :
    k ∈ flat ↔ (∃ t, offers[k]? = some (.target t) ∧ stars k = 0) ∨
      ¬Barred offers k ∧ ∃ rule v, Declares offers rule ∧ rule.Yields root view k v := by
  have hmeaning := meaning_of_expand offers root view flat h k
  rw [Table.mem_iff]
  generalize flat[k]? = value at hmeaning ⊢
  cases hmeaning with
  | literal offer plain => exact iff_of_true ⟨_, rfl⟩ (Or.inl ⟨_, offer, plain⟩)
  | barred other barred =>
    refine iff_of_false (by simp) ?_
    rintro (⟨t, offer, plain⟩ | ⟨free, -⟩)
    · exact other t offer plain
    · exact free barred
  | expanded other free leads =>
    exact iff_of_true ⟨_, rfl⟩ (Or.inr ⟨free, _, _, leads.declared, leads.yields⟩)
  | absent other free unmatched =>
    refine iff_of_false (by simp) ?_
    rintro (⟨t, offer, plain⟩ | ⟨-, rule, v, declared, yields⟩)
    · exact other t offer plain
    · exact unmatched rule v declared yields

/-- A target in a result is that of the literal offer, or the leading rule gives it. -/
theorem source_of_expand (h : expand offers (some root) view = .ok flat) (k v : String)
    (hv : flat[k]? = some v) : (offers[k]? = some (.target v) ∧ stars k = 0) ∨
      (∀ t, offers[k]? = some (.target t) → stars k ≠ 0) ∧
        ∃ rule, Leads offers root view k rule v := by
  have hmeaning := meaning_of_expand offers root view flat h k
  rw [hv] at hmeaning
  cases hmeaning with
  | literal offer plain => exact Or.inl ⟨offer, plain⟩
  | expanded other free leads => exact Or.inr ⟨other, _, leads⟩

theorem literal_kept (h : expand offers (some root) view = .ok flat) (k t : String)
    (hoffer : offers[k]? = some (.target t)) (hplain : stars k = 0) : flat[k]? = some t :=
  meaning_unique offers root view k _ _ (meaning_of_expand offers root view flat h k)
    (.literal hoffer hplain)

end Sources

/-- Every subpath of the result, and every subpath missing from it, has the meaning that the
offers and the files give it. -/
theorem expand_meaning (offers : Table Offer) (root : Path) (view : FileView) (flat : Table String)
    (h : expand offers (some root) view = .ok flat) (k : String) (value : Option String) :
    flat[k]? = value ↔ Meaning offers root view k value := by
  have hmeaning := meaning_of_expand offers root view flat h k
  constructor
  · rintro rfl
    exact hmeaning
  · intro hvalue
    exact meaning_unique offers root view k _ _ hmeaning hvalue

/-- Two patterns that overlap, a veto and a literal offer. -/
def overlapping : Table Offer := .ofRows [("./*", .target "./lib/*"),
  ("./lib-*", .target "./dist/*"), ("./private/*", .withheld), ("./x", .target "./x.js")]

def overlappingView : FileView := .ofAnswers [
  (.ofText "/pkg/lib", .ok [⟨"lib-a", true⟩, ⟨"private", false⟩, ⟨"private/b", true⟩, ⟨"x", true⟩]),
  (.ofText "/pkg/dist", .ok [⟨"a", true⟩])]

theorem expand_meaning_overlapping :
    ∃ flat, expand overlapping (some (.ofText "/pkg")) overlappingView = .ok flat ∧
      Meaning overlapping (.ofText "/pkg") overlappingView "./lib-a" (some "./dist/a") ∧
      Meaning overlapping (.ofText "/pkg") overlappingView "./private/b" none ∧
      Meaning overlapping (.ofText "/pkg") overlappingView "./x" (some "./x.js") := by
  have hvalues : ((expand overlapping (some (.ofText "/pkg")) overlappingView).toOption.map
      fun flat => (flat["./lib-a"]?, flat["./private/b"]?, flat["./x"]?)) =
      some (some "./dist/a", none, some "./x.js") := by decide +kernel
  obtain ⟨flat, hflat, hread⟩ := ok_of_values _ _ _ hvalues
  simp only [Prod.mk.injEq] at hread
  have hmeaning := expand_meaning overlapping (.ofText "/pkg") overlappingView flat hflat
  exact ⟨flat, hflat, (hmeaning _ _).mp hread.1, (hmeaning _ _).mp hread.2.1,
    (hmeaning _ _).mp hread.2.2⟩

end EntryPoints.Expansion
