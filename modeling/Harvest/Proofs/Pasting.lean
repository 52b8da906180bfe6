/-
  Harvest.Proofs.Pasting — a pasted value shows its leaves alone.

  A container is pasted by joining what it holds, which is pasted in the same way before. The
  text is that of joining all leaves once, in document order (`paste_eq_intercalate`): each
  comma of an inner container stands between two leaves, and so does each of an outer one.
  This needs that no container is without a leaf, or it would have no part in the join of
  the leaves and leave a comma in the join of the containers. An empty one has an empty text,
  and counts as a leaf itself.

  So the containers leave no trace. An array may hold what an inner container held in place
  of the container, and an object may give way to an array, anywhere in a value and any
  number of times (`Flattened`), and the value is pasted as before.
-/

import Harvest.Report.Basic
import Harvest.Proofs.Fields
import Mathlib.Logic.Relation

namespace Harvest.Json

/-! ## What a container holds -/

/-- The values a container holds, in document order; nothing for a scalar. -/
def held? : Json → Option (List Json)
  | .array items => some items
  | .object members => some (members.map (·.2))
  | _ => none

theorem size_lt_of_mem_held {v w : Json} {held : List Json} (hv : v.held? = some held) (h : w ∈ held) :
    w.size < v.size := by
  cases v with
  | array items =>
    cases hv
    exact Nat.lt_succ_of_le (size_le_sizeAll h)
  | object members =>
    cases hv
    obtain ⟨m, hm, rfl⟩ := List.mem_map.mp h
    exact Nat.lt_succ_of_le (size_le_sizeMembers hm)
  | _ => cases hv

@[elab_as_elim]
theorem induction_held {motive : Json → Prop}
    (step : ∀ v, (∀ held, v.held? = some held → ∀ w ∈ held, motive w) → motive v) (v : Json) : motive v :=
  step v fun _ hv w h =>
    have := size_lt_of_mem_held hv h
    induction_held step w
termination_by v.size

/-! ## Leaves -/

mutual

/-- The texts of the leaves of a value in document order. A container that holds nothing is a
    leaf, with an empty text. -/
def leafTexts : Json → List String
  | .null => [""]
  | .string s => [s]
  | .array items => if items.isEmpty then [""] else leafTextsItems items
  | .object members => if members.isEmpty then [""] else leafTextsMembers members
  | v => [compact v]

def leafTextsItems : List Json → List String
  | [] => []
  | v :: rest => leafTexts v ++ leafTextsItems rest

def leafTextsMembers : List (String × Json) → List String
  | [] => []
  | (_, v) :: rest => leafTexts v ++ leafTextsMembers rest

end

theorem leafTextsItems_eq_flatMap (l : List Json) : leafTextsItems l = l.flatMap leafTexts := by
  induction l with
  | nil => rfl
  | cons v l ih => rw [leafTextsItems, ih, List.flatMap_cons]

theorem leafTextsMembers_eq_flatMap (l : List (String × Json)) :
    leafTextsMembers l = (l.map (·.2)).flatMap leafTexts := by
  induction l with
  | nil => rfl
  | cons m l ih => rw [leafTextsMembers, ih, List.map_cons, List.flatMap_cons]

theorem leafTexts_of_held {v : Json} {held : List Json} (hv : v.held? = some held) :
    v.leafTexts = if held.isEmpty then [""] else held.flatMap leafTexts := by
  cases v with
  | array items =>
    cases hv
    rw [leafTexts, leafTextsItems_eq_flatMap]
  | object members =>
    cases hv
    rw [leafTexts, leafTextsMembers_eq_flatMap, List.isEmpty_map]
  | _ => cases hv

theorem pasteItems_eq_map (l : List Json) : pasteItems l = l.map paste := by
  induction l with
  | nil => rfl
  | cons v l ih => rw [pasteItems, ih, List.map_cons]

theorem pasteMembers_eq_map (l : List (String × Json)) : pasteMembers l = (l.map (·.2)).map paste := by
  induction l with
  | nil => rfl
  | cons m l ih => rw [pasteMembers, ih, List.map_cons, List.map_cons]

theorem paste_of_held {v : Json} {held : List Json} (hv : v.held? = some held) :
    v.paste = String.intercalate "," (held.map paste) := by
  cases v with
  | array items =>
    cases hv
    rw [paste, pasteItems_eq_map]
  | object members =>
    cases hv
    rw [paste, pasteMembers_eq_map]
  | _ => cases hv

theorem leafTexts_of_scalar {v : Json} (hv : v.held? = none) : v.leafTexts = [v.paste] := by
  cases v with
  | array | object => cases hv
  | bool b => cases b <;> rfl
  | _ => rfl

theorem leafTexts_ne_nil (v : Json) : v.leafTexts ≠ [] := by
  induction v using induction_held with
  | step v ih =>
    cases hv : v.held? with
    | none => simp [leafTexts_of_scalar hv]
    | some held =>
      cases held with
      | nil => simp [leafTexts_of_held hv]
      | cons w rest =>
        have hw := ih _ hv w (List.mem_cons_self ..)
        simp [leafTexts_of_held hv, hw]

/-! ## Joining -/

/-- Lists that are joined each, and then together, are joined at once, if none is empty. -/
theorem intercalate_map_intercalate {sep : String} {ls : List (List String)} (h : ∀ l ∈ ls, l ≠ []) :
    sep.intercalate (ls.map sep.intercalate) = sep.intercalate ls.flatten := by
  induction ls with
  | nil => rfl
  | cons l ls ih =>
    rw [List.forall_mem_cons] at h
    cases ls with
    | nil => rw [List.map_singleton, String.intercalate_singleton, List.flatten_singleton]
    | cons m ls =>
      have hm : m ≠ [] := h.2 m (List.mem_cons_self ..)
      have hjoined : (m :: ls).map sep.intercalate ≠ [] := by simp
      have hflat : (m :: ls).flatten ≠ [] := by simp [hm]
      calc sep.intercalate ((l :: m :: ls).map sep.intercalate)
          = sep.intercalate l ++ sep ++ sep.intercalate ((m :: ls).map sep.intercalate) :=
            String.intercalate_cons_of_ne_nil hjoined
        _ = sep.intercalate l ++ sep ++ sep.intercalate (m :: ls).flatten := by rw [ih h.2]
        _ = sep.intercalate (l ++ (m :: ls).flatten) := (String.intercalate_append_of_ne_nil h.1 hflat).symm

theorem paste_eq_intercalate (v : Json) : v.paste = String.intercalate "," v.leafTexts := by
  induction v using induction_held with
  | step v ih =>
    cases hv : v.held? with
    | none => rw [leafTexts_of_scalar hv, String.intercalate_singleton]
    | some held =>
      have hmap : held.map paste = (held.map leafTexts).map (String.intercalate ",") := by
        rw [List.map_map]
        exact List.map_congr_left (ih held hv)
      have hne : ∀ l ∈ held.map leafTexts, l ≠ [] := List.forall_mem_map.mpr fun w _ => leafTexts_ne_nil w
      rw [paste_of_held hv, hmap, intercalate_map_intercalate hne, leafTexts_of_held hv]
      cases held with
      | nil => rfl
      | cons w rest => rfl

/-! ## Containers taken away -/

/-- One container of the value is taken away: it stood in an array, which now holds what it
    held; or it was an object and is an array of the values of its members. -/
inductive FlattenedOnce : Json → Json → Prop
  | splice {before held after : List Json} {inner : Json} : inner.held? = some held → held ≠ [] →
      FlattenedOnce (.array (before ++ inner :: after)) (.array (before ++ held ++ after))
  | values (members : List (String × Json)) : FlattenedOnce (.object members) (.array (members.map (·.2)))
  | item {before after : List Json} {v w : Json} : FlattenedOnce v w →
      FlattenedOnce (.array (before ++ v :: after)) (.array (before ++ w :: after))
  | member {before after : List (String × Json)} {name : String} {v w : Json} : FlattenedOnce v w →
      FlattenedOnce (.object (before ++ (name, v) :: after)) (.object (before ++ (name, w) :: after))

/-- Any number of containers are taken away, one after the other. -/
def Flattened : Json → Json → Prop := Relation.ReflTransGen FlattenedOnce

theorem FlattenedOnce.leafTexts_eq {v w : Json} (h : FlattenedOnce v w) : w.leafTexts = v.leafTexts := by
  induction h with
  | @splice before held after inner hinner hne =>
    have hleaves : inner.leafTexts = held.flatMap leafTexts := by
      rw [leafTexts_of_held hinner, if_neg (by simpa using hne)]
    rw [leafTexts_of_held rfl, leafTexts_of_held rfl]
    simp [hleaves, hne]
  | values members => rw [leafTexts_of_held rfl, leafTexts_of_held rfl]
  | item _ ih =>
    rw [leafTexts_of_held rfl, leafTexts_of_held rfl]
    simp [ih]
  | member _ ih =>
    rw [leafTexts_of_held rfl, leafTexts_of_held rfl]
    simp [ih]

theorem Flattened.leafTexts_eq {v w : Json} (h : v.Flattened w) : w.leafTexts = v.leafTexts := by
  induction h with
  | refl => rfl
  | tail _ hstep ih => exact hstep.leafTexts_eq.trans ih

/-- A value is pasted as its leaves are joined, once and in document order; so it is pasted the same
    with containers taken away. -/
theorem paste_shows_the_leaves (v : Json) :
    v.paste = String.intercalate "," v.leafTexts ∧ ∀ w, v.Flattened w → w.paste = v.paste := by
  refine ⟨paste_eq_intercalate v, fun w h => ?_⟩
  rw [paste_eq_intercalate, paste_eq_intercalate, h.leafTexts_eq]

/-- The object and then the array in it are spliced; the empty object that is left stays a leaf, as an
    empty array. -/
theorem paste_shows_the_leaves_of_three_containers :
    let inner : Json := .object [("k", .array [.int (-7), .object []]), ("l", .null)]
    let v : Json := .object [("x", .array [.array [], inner, .string "a,b"])]
    let w : Json := .object [("x", .array [.array [], .int (-7), .array [], .null, .string "a,b"])]
    v.leafTexts = ["", "-7", "", "", "a,b"] ∧ v.paste = String.intercalate "," v.leafTexts ∧
      v.Flattened w ∧ w.paste = v.paste ∧ w.paste = ",-7,,,a,b" := by
  intro inner v w
  have hmember : ∀ {a b : Json}, FlattenedOnce a b → FlattenedOnce (.object [("x", a)]) (.object [("x", b)]) :=
    @FlattenedOnce.member [] [] "x"
  have hobject := hmember (@FlattenedOnce.splice [.array []] _ [.string "a,b"] inner rfl (List.cons_ne_nil _ _))
  have harray := hmember (@FlattenedOnce.splice [.array []] _ [.null, .string "a,b"] (.array [.int (-7), .object []])
    rfl (List.cons_ne_nil _ _))
  have hempty := hmember (@FlattenedOnce.item [.array [], .int (-7)] [.null, .string "a,b"] _ _ (.values []))
  have h : v.Flattened w := ((Relation.ReflTransGen.single hobject).tail harray).tail hempty
  obtain ⟨hjoin, hflattened⟩ := paste_shows_the_leaves v
  exact ⟨by decide +kernel, hjoin, h, hflattened w h, by decide +kernel⟩

/-- An empty container is not spliced: its place among the leaves would be lost. -/
example : (array [array [], string "a"]).paste = ",a" ∧ (array [string "a"]).paste = "a" := by decide +kernel

end Harvest.Json
