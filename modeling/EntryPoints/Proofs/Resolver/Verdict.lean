import EntryPoints.FileSet
import EntryPoints.Proofs.Resolver.Stages

/-!
# What decides a resolution

The stages refuse in turn: an absent value, one that declares nothing, keys of both sorts, a value
outside the grammar, a choice that fails. The first that applies decides. If none does, what the
choices come to is expanded, and the expansion is the outcome.
-/

set_option autoImplicit false

namespace EntryPoints.Resolver
open Declaration

variable (conditions : ConditionSet)

/-- The main choice fails, or in an object of subpaths some choice does, the first of them so. -/
inductive Failure (v : Json) : Error → Prop
  | whole {target : String} (form : Whole v)
      (fails : selected conditions v = .error (.invalidTarget target)) :
      Failure v (.invalidTarget target)
  | listed {before : List (String × Json)} {k : String} {value : Json}
      {after : List (String × Json)} {target : String}
      (form : Listed v (before ++ (k, value) :: after))
      (first : ∀ member ∈ before, ∀ e, selected conditions member.2 ≠ .error e)
      (fails : selected conditions value = .error (.invalidTarget target)) :
      Failure v (.invalidTarget target)

/-- What is offered: the target of the main choice, if it has one, or under each subpath what its
choice comes to, those aside that are unresolved. -/
inductive Offered (v : Json) : Table Offer → Prop
  | main {target : String} (form : Whole v)
      (resolves : selected conditions v = .ok (.target target)) :
      Offered v (.ofRows [(".", .target target)])
  | nothing (form : Whole v) (resolves : ∀ target, selected conditions v ≠ .ok (.target target)) :
      Offered v ∅
  | listed {members : List (String × Json)} {offers : Table Offer} (form : Listed v members)
      (targets : ∀ k target : String, offers[k]? = some (.target target) ↔
        ∃ value, (k, value) ∈ members ∧ selected conditions value = .ok (.target target))
      (withheld : ∀ k : String, offers[k]? = some .withheld ↔
        ∃ value, (k, value) ∈ members ∧ selected conditions value = .ok .withheld) :
      Offered v offers

inductive Verdict (resolver : Resolver) (v : Json) (request : Request) (view : FileView) :
    Except Error (Table String) → Prop
  | absent (value : Absent v) : Verdict resolver v request view (.error .undefinedExports)
  | bare (present : ¬Absent v) (value : Bare v) :
      Verdict resolver v request view (.error .emptyExports)
  | mixed {key : String} (present : ¬Absent v) (filled : ¬Bare v) (keys : Mixed v key) :
      Verdict resolver v request view (.error (.mixedKeyFormat key))
  | foreign {w : Json} (shape : Shaped v) (first : v.firstForeign? = some w) :
      Verdict resolver v request view (.error (.unsupportedExportsValue w.kind))
  | failed {e : Error} (shape : Shaped v) (native : v.firstForeign? = none)
      (failure : Failure (resolver.conditionsFor request) v e) :
      Verdict resolver v request view (.error e)
  | expanded {offers : Table Offer} (shape : Shaped v) (native : v.firstForeign? = none)
      (sound : ∀ e, ¬Failure (resolver.conditionsFor request) v e)
      (offered : Offered (resolver.conditionsFor request) v offers) :
      Verdict resolver v request view (expand offers request.root? view)

theorem offers_failure (v : Json) (e : Error) (hfilled : ¬Bare v)
    (hnative : v.firstForeign? = none) (h : Failure conditions v e) :
    (Declaration.ofJson v).bind (Declaration.offers conditions) = .error e := by
  cases h with
  | whole form fails => rw [offers_whole conditions v hnative form, fails, Except.map]
  | @listed before k value after target form first fails =>
    have hfailure := (failure_of_members conditions (before ++ (k, value) :: after) _).mpr
      ⟨before, k, value, after, rfl, fails, first⟩
    rw [offers_listed conditions v _ form hfilled hnative, hfailure]

theorem no_failure_of_sound (v : Json) (members : List (String × Json)) (hlisted : Listed v members)
    (hnative : v.firstForeign? = none) (hsound : ∀ e, ¬Failure conditions v e) :
    (outcomes conditions members).findSome? Outcome.failure? = none := by
  cases hfirst : (outcomes conditions members).findSome? Outcome.failure? with
  | none => rfl
  | some e =>
    obtain ⟨before, k, value, after, rfl, hfails, hbefore⟩ :=
      (failure_of_members conditions members e).mp hfirst
    have hvalue : value.firstForeign? = none := by
      rw [hlisted.object] at hnative
      exact Json.member_native _ hnative (k, value) (by simp)
    obtain ⟨target, rfl⟩ := selected_error conditions value e hvalue hfails
    exact absurd (.listed hlisted hbefore hfails) (hsound _)

theorem offers_ext (offers others : Table Offer)
    (htarget : ∀ k target : String,
      offers[k]? = some (.target target) ↔ others[k]? = some (.target target))
    (hwithheld : ∀ k : String, offers[k]? = some .withheld ↔ others[k]? = some .withheld) :
    offers = others := by
  apply Std.ExtTreeMap.ext_getElem?
  intro k
  apply Option.ext
  intro offer
  cases offer with
  | target path => exact htarget k path
  | withheld => exact hwithheld k

theorem offers_offered (v : Json) (offers : Table Offer) (hkeys : v.NamesOnce) (hfilled : ¬Bare v)
    (hnative : v.firstForeign? = none) (hsound : ∀ e, ¬Failure conditions v e)
    (h : Offered conditions v offers) :
    (Declaration.ofJson v).bind (Declaration.offers conditions) = .ok offers := by
  cases h with
  | main form resolves => rw [offers_whole conditions v hnative form, resolves, Except.map]
  | nothing form resolves =>
    rw [offers_whole conditions v hnative form]
    cases hselected : selected conditions v with
    | error e =>
      obtain ⟨target, rfl⟩ := selected_error conditions v e hnative hselected
      exact absurd (.whole form hselected) (hsound _)
    | ok selection =>
      cases selection with
      | target path => exact absurd hselected (resolves path)
      | unresolved | withheld => rfl
  | @listed members offers form targets withheld =>
    have hnames := hkeys members form.object
    rw [offers_listed conditions v members form hfilled hnative,
      no_failure_of_sound conditions v members form hnative hsound]
    refine congrArg Except.ok (offers_ext _ _ (fun k target => ?_) fun k => ?_)
    · rw [target_of_members conditions members hnames, targets]
    · rw [withheld_of_members conditions members hnames, withheld]

theorem offered_total (v : Json) (hkeys : v.NamesOnce) (hshape : Shaped v) :
    ∃ offers, Offered conditions v offers := by
  rcases whole_or_listed v hshape.uniform with hwhole | ⟨members, hlisted⟩
  · by_cases htarget : ∃ target, selected conditions v = .ok (.target target)
    · obtain ⟨target, htarget⟩ := htarget
      exact ⟨_, .main hwhole htarget⟩
    · exact ⟨_, .nothing hwhole fun target h => htarget ⟨target, h⟩⟩
  · have hnames := hkeys members hlisted.object
    exact ⟨_, .listed hlisted (target_of_members conditions members hnames)
      (withheld_of_members conditions members hnames)⟩

theorem verdict_sound (resolver : Resolver) (v : Json) (request : Request) (view : FileView)
    (hkeys : v.NamesOnce) (outcome : Except Error (Table String))
    (h : Verdict resolver v request view outcome) :
    resolver.flatten v request view = outcome := by
  rw [flatten]
  cases h with
  | absent value => rw [offers, if_pos ((isUndefined_iff v).mpr value)]; rfl
  | bare present value =>
    rw [offers, if_neg (mt (isUndefined_iff v).mp present), check_bare v value]
    rfl
  | mixed present filled keys =>
    rw [offers, if_neg (mt (isUndefined_iff v).mp present), check_mixed v _ keys]
    rfl
  | foreign shape first =>
    rw [offers_shaped resolver v request shape, ofJson_foreign v _ shape first]
    rfl
  | failed shape native failure =>
    rw [offers_shaped resolver v request shape,
      offers_failure _ v _ shape.filled native failure]
    rfl
  | expanded shape native sound offered =>
    rw [offers_shaped resolver v request shape,
      offers_offered _ v _ hkeys shape.filled native sound offered]
    rfl

theorem verdict_total (resolver : Resolver) (v : Json) (request : Request) (view : FileView)
    (hkeys : v.NamesOnce) : ∃ outcome, Verdict resolver v request view outcome := by
  by_cases habsent : Absent v
  · exact ⟨_, .absent habsent⟩
  by_cases hbare : Bare v
  · exact ⟨_, .bare habsent hbare⟩
  by_cases hmixed : ∃ key, Mixed v key
  · obtain ⟨key, hmixed⟩ := hmixed
    exact ⟨_, .mixed habsent hbare hmixed⟩
  have hshape : Shaped v := ⟨habsent, hbare, fun key h => hmixed ⟨key, h⟩⟩
  cases hnative : v.firstForeign? with
  | some w => exact ⟨_, .foreign hshape hnative⟩
  | none =>
    by_cases hfailure : ∃ e, Failure (resolver.conditionsFor request) v e
    · obtain ⟨e, hfailure⟩ := hfailure
      exact ⟨_, .failed hshape hnative hfailure⟩
    · have hsound : ∀ e, ¬Failure (resolver.conditionsFor request) v e :=
        fun e h => hfailure ⟨e, h⟩
      obtain ⟨offers, hoffers⟩ := offered_total _ v hkeys hshape
      exact ⟨_, .expanded hshape hnative hsound hoffers⟩

/-- The outcome of a resolution is the one that the first stage to apply decides on. -/
theorem flatten_verdict (resolver : Resolver) (v : Json) (request : Request) (view : FileView)
    (hkeys : v.NamesOnce) (outcome : Except Error (Table String)) :
    resolver.flatten v request view = outcome ↔ Verdict resolver v request view outcome := by
  constructor
  · rintro rfl
    obtain ⟨outcome, hverdict⟩ := verdict_total resolver v request view hkeys
    rwa [verdict_sound resolver v request view hkeys outcome hverdict]
  · exact verdict_sound resolver v request view hkeys outcome

/-- Two members that fail. The first has two alternatives that fail, and the later one counts. -/
def failing : Json := .object [
  (".", .array [.string "lodash", .object [("import", .string "index.js")]]),
  ("./b", .string "b.js"), ("./c", .null)]

theorem flatten_verdict_failing : failing.NamesOnce ∧
    Verdict {} failing { root? := some (.ofText "/pkg") } FileSet.empty.view
      (.error (.invalidTarget "index.js")) := by
  have hkeys : failing.NamesOnce := by
    rintro _ ⟨⟩
    decide
  have hflat : flatten {} failing { root? := some (.ofText "/pkg") } FileSet.empty.view =
      .error (.invalidTarget "index.js") := rfl
  exact ⟨hkeys, (flatten_verdict {} failing _ _ hkeys _).mp hflat⟩

end EntryPoints.Resolver
