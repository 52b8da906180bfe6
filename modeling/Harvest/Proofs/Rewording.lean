/-
  Harvest.Proofs.Rewording — one tree described in other words.

  The fields of a node can be given in another form: the members of an object in another
  order or by the other name of the label, a null left out, or all of it as an array
  (`Json.Restated`). The declaration read from it is then the same. Or a field can be given
  another value that says the same (`Field.Exchanges`): the keys of a filter in another order
  or more than once, a mode in other letter case, a mode or a type between blanks. The
  declaration then differs in that field and the rule it declares does not.

  Both can be done at any node of a description, among the members of groups too
  (`Json.Reworded`), and any number of times. The tree stays the same, marks included
  (`rewording_keeps_the_tree`).
-/

import Harvest.Proofs.Acceptance
import Harvest.Proofs.Keys
import Harvest.Proofs.Translation
import Mathlib.Data.List.Perm.Basic
import Mathlib.Logic.Relation

namespace Harvest

open scoped List

/-! ## Words -/

namespace Text

/-- The second text is the first between blanks. -/
def Padded (s t : String) : Prop :=
  ∃ before after : List Char, (∀ c ∈ before, isBlank c) ∧ (∀ c ∈ after, isBlank c) ∧
    t.toList = before ++ s.toList ++ after

/-- The texts are the same but for the case of letters. -/
def SameButCase (s t : String) : Prop := List.Forall₂ (fun c d => c.toLower = d.toLower) s.toList t.toList

theorem dropWhile_append_of_all {before : List Char} (h : ∀ c ∈ before, isBlank c) (cs : List Char) :
    (before ++ cs).dropWhile isBlank = cs.dropWhile isBlank := by
  rw [List.dropWhile_append, List.dropWhile_eq_nil_iff.mpr h]
  rfl

theorem trimChars_padded {before cs after : List Char} (hb : ∀ c ∈ before, isBlank c) (ha : ∀ c ∈ after, isBlank c) :
    trimChars (before ++ cs ++ after) = trimChars cs := by
  have hreverse : ∀ c ∈ after.reverse, isBlank c := fun c hc => ha c (List.mem_reverse.mp hc)
  rw [trimChars, trimChars, List.append_assoc, dropWhile_append_of_all hb, List.dropWhile_append]
  cases hcs : cs.dropWhile isBlank with
  | nil =>
    rw [List.dropWhile_eq_nil_iff.mpr ha]
    rfl
  | cons c rest =>
    show (((c :: rest) ++ after).reverse.dropWhile isBlank).reverse = _
    rw [List.reverse_append, dropWhile_append_of_all hreverse]

theorem trim_of_padded {s t : String} (h : Padded s t) : trim t = trim s := by
  obtain ⟨before, after, hb, ha, ht⟩ := h
  rw [trim, trim, ht, trimChars_padded hb ha]

theorem isBlank_toLower (c : Char) : isBlank c.toLower = isBlank c := by
  by_cases hc : c.val ≥ 'A'.val ∧ c.val ≤ 'Z'.val
  · -- neither a capital letter nor the small one it stands for is a blank
    have hcapital : 65 ≤ c.toNat ∧ c.toNat ≤ 90 := hc
    have hsmall : c.toLower.toNat = c.toNat + 32 := by
      rw [show c.toLower = _ from dif_pos hc]
      show (c.val + 32).toNat = c.val.toNat + 32
      have hv : c.val.toNat ≤ 90 := hcapital.2
      rw [UInt32.toNat_add]
      simp
      omega
    have hnot : ∀ d : Char, 65 ≤ d.toNat → d.toNat ≤ 122 → isBlank d = false := by
      intro d hd hd'
      simp [isBlank, blanks]
      omega
    rw [hnot c (by omega) (by omega), hnot c.toLower (by omega) (by omega)]
  · rw [show c.toLower = c from dif_neg hc]

theorem trimChars_map_toLower (cs : List Char) : trimChars (cs.map Char.toLower) = (trimChars cs).map Char.toLower := by
  have hblank : isBlank ∘ Char.toLower = isBlank := funext isBlank_toLower
  simp only [trimChars, List.dropWhile_map, hblank, ← List.map_reverse]

theorem word_of_sameButCase {s t : String} (h : SameButCase s t) : word s = word t := by
  have hlower : s.toList.map Char.toLower = t.toList.map Char.toLower := by
    rw [← List.forall₂_eq_eq_eq, List.forall₂_map_left_iff, List.forall₂_map_right_iff]
    exact h
  have hword : ∀ u, (word u).toList = trimChars (u.toList.map Char.toLower) := by
    intro u
    rw [word, lower, String.toList_map, trim, String.toList_ofList, trimChars_map_toLower]
  rw [← String.toList_inj, hword, hword, hlower]

end Text

/-! ## Fields looked up -/

/-- Where no field is given twice, a look-up finds what is given. -/
theorem lookup_eq_some_iff_mem {l : List (Field × Json)} (h : (l.map (·.1)).Nodup) {f : Field} {x : Json} :
    l.lookup f = some x ↔ (f, x) ∈ l := by
  constructor
  · exact mem_of_lookup_eq_some
  · intro hm
    obtain ⟨before, after, rfl⟩ := List.append_of_mem hm
    refine List.lookup_eq_some_iff.mpr ⟨before, after, rfl, ?_⟩
    intro p hp
    rw [List.map_append, List.map_cons] at h
    have hne : f ≠ p.1 := fun he =>
      (List.nodup_append.mp h).2.2 p.1 (List.mem_map.mpr ⟨p, hp, rfl⟩) f (List.mem_cons_self ..) he.symm
    simpa using hne

theorem lookup_eq_of_perm {l m : List (Field × Json)} (h : (l.map (·.1)).Nodup) (hp : l ~ m) (f : Field) :
    m.lookup f = l.lookup f := by
  have hm : (m.map (·.1)).Nodup := (hp.map _).nodup_iff.mp h
  apply Option.ext
  intro x
  rw [lookup_eq_some_iff_mem hm, lookup_eq_some_iff_mem h, hp.mem_iff]

theorem lookup_append_cons {before after : List (Field × Json)} {f : Field} (h : f ∉ (before ++ after).map (·.1))
    (x : Json) (g : Field) :
    (before ++ (f, x) :: after).lookup g = if g = f then some x else (before ++ after).lookup g := by
  rw [List.lookup_append, List.lookup_append, List.lookup_cons]
  by_cases hg : g = f
  · have hnone : before.lookup f = none :=
      lookup_eq_none_iff_notMem.mpr fun hm => h (by rw [List.map_append]; exact List.mem_append_left _ hm)
    rw [hg, hnone, if_pos rfl, beq_self_eq_true]
    rfl
  · rw [beq_false_of_ne hg, if_neg hg]

/-- Of fields given once, one stands nowhere else. -/
theorem notMem_of_nodup {before after : List (Field × Json)} {f : Field} {x : Json}
    (h : ((before ++ (f, x) :: after).map (·.1)).Nodup) : f ∉ (before ++ after).map (·.1) := by
  rw [List.map_append, List.map_cons, List.nodup_middle, ← List.map_append] at h
  exact (List.nodup_cons.mp h).1

/-! ## The same fields in another form -/

/-- What stands for a field that is not given. -/
def Field.blank (f : Field) : Json := if f.isList then .array [] else .null

theorem Field.admits_blank (f : Field) : f.Admits f.blank := by
  cases f with
  | included | excluded | children | groups => exact ⟨[], rfl⟩
  | type | label | stack | process | ordinal => exact Or.inl rfl

namespace Json

/-- The two names of the label, either way round. -/
def NamesOfLabel (a b : String) : Prop := a = "as" ∧ b = "name" ∨ a = "name" ∧ b = "as"

inductive Restated : Json → Json → Prop
  | reordered {members members' : List (String × Json)} :
      members ~ members' → Restated (.object members) (.object members')
  | dropped {field : Field} {before after : List (String × Json)} {name : String} :
      Field.ofName? name = some field → field.isList = false →
        Restated (.object (before ++ (name, .null) :: after)) (.object (before ++ after))
  | renamed {before after : List (String × Json)} {a b : String} {x : Json} :
      NamesOfLabel a b → Restated (.object (before ++ (a, x) :: after)) (.object (before ++ (b, x) :: after))
  | listed {members : List (String × Json)} :
      Restated (.object members) (.array (Field.all.map fun f => ((Json.object members).field? f).getD f.blank))

theorem given_append_cons {name : String} {f : Field} (h : Field.ofName? name = some f) (x : Json)
    (before after : List (String × Json)) :
    (object (before ++ (name, x) :: after)).given = (object before).given ++ (f, x) :: (object after).given := by
  simp [given, h]

theorem given_append (before after : List (String × Json)) :
    (object (before ++ after)).given = (object before).given ++ (object after).given := List.filterMap_append ..

theorem shaped_object_iff {members : List (String × Json)} :
    (object members).Shaped ↔ (∀ m ∈ members, (Field.ofName? m.1).isSome) ∧
      ((object members).given.map (·.1)).Nodup ∧ ∀ f x, (f, x) ∈ (object members).given → f.Admits x := by
  constructor
  · rintro ⟨hk, ht⟩
    exact ⟨looksLikeSpec_iff.mp hk.1, hk.nodup_given, ht⟩
  · rintro ⟨hk, hn, ht⟩
    exact ⟨⟨looksLikeSpec_iff.mpr hk, (nodup_given_iff hk).mp hn⟩, ht⟩

end Json

namespace Declaration

theorem value_empty (f : Field) : ({} : Declaration).value f = f.blank := by cases f <;> rfl

/-- The declaration hangs on nothing but what stands for the fields. -/
theorem ofJson_of_field? {v w : Json} {d : Declaration} (hw : w.Shaped)
    (h : ∀ f : Field, (w.field? f).getD f.blank = (v.field? f).getD f.blank) (hd : ofJson v = .ok d) :
    ofJson w = .ok d := by
  obtain ⟨hv, rfl⟩ := ofJson_eq_ok_iff.mp hd
  refine ofJson_eq_ok_iff.mpr ⟨hw, eq_of_value fun f => ?_⟩
  rw [declared_value hv, declared_value hw, value_empty, h]

theorem ofJson_restated {v w : Json} {d : Declaration} (h : v.Restated w) (hd : ofJson v = .ok d) :
    ofJson w = .ok d := by
  have hv : v.Shaped := (ofJson_eq_ok_iff.mp hd).1
  cases h with
  | @reordered members members' hp =>
    obtain ⟨hk, hn, ht⟩ := Json.shaped_object_iff.mp hv
    have hg : (Json.object members).given ~ (Json.object members').given := hp.filterMap _
    refine ofJson_of_field? (Json.shaped_object_iff.mpr ⟨?_, (hg.map _).nodup_iff.mp hn, ?_⟩) (fun f => ?_) hd
    · exact fun m hm => hk m (hp.mem_iff.mpr hm)
    · exact fun f x hm => ht f x (hg.mem_iff.mpr hm)
    · rw [Json.field?, Json.field?, lookup_eq_of_perm hn hg]
  | @dropped field before after name hf hlist =>
    obtain ⟨hk, hn, ht⟩ := Json.shaped_object_iff.mp hv
    have hsub : (Json.object (before ++ after)).given <+ (Json.object (before ++ (name, .null) :: after)).given :=
      ((List.sublist_cons_self ..).append_left _).filterMap _
    have hn' := hn.sublist (hsub.map _)
    refine ofJson_of_field? (Json.shaped_object_iff.mpr ⟨?_, hn', ?_⟩) (fun f => ?_) hd
    · exact fun m hm => hk m (((List.sublist_cons_self ..).append_left _).subset hm)
    · exact fun f x hm => ht f x (hsub.subset hm)
    · rw [Json.given_append_cons hf] at hn
      have hnone := notMem_of_nodup hn
      rw [Json.field?, Json.field?, Json.given_append, Json.given_append_cons hf, lookup_append_cons hnone]
      by_cases hfield : f = field
      · rw [if_pos hfield, hfield, lookup_eq_none_iff_notMem.mpr hnone, Field.blank, hlist]
        rfl
      · rw [if_neg hfield]
  | @renamed before after a b x hab =>
    have ha : Field.ofName? a = some .label := by rcases hab with ⟨rfl, -⟩ | ⟨rfl, -⟩ <;> rfl
    have hb : Field.ofName? b = some .label := by rcases hab with ⟨-, rfl⟩ | ⟨-, rfl⟩ <;> rfl
    have hg : (Json.object (before ++ (b, x) :: after)).given = (Json.object (before ++ (a, x) :: after)).given := by
      rw [Json.given_append_cons ha, Json.given_append_cons hb]
    obtain ⟨hk, hn, ht⟩ := Json.shaped_object_iff.mp hv
    refine ofJson_of_field? (Json.shaped_object_iff.mpr ⟨?_, hg ▸ hn, hg ▸ ht⟩) (fun f => ?_) hd
    · intro m hm
      rcases List.mem_append.mp hm with hm | hm
      · exact hk m (List.mem_append_left _ hm)
      · rcases List.mem_cons.mp hm with rfl | hm
        · rw [hb]
          rfl
        · exact hk m (List.mem_append_right _ (List.mem_cons_of_mem _ hm))
    · rw [Json.field?, Json.field?, hg]
  | @listed members =>
    let filled (f : Field) : Json := ((Json.object members).field? f).getD f.blank
    have hg : (Json.array (Field.all.map filled)).given = Field.all.map fun f => (f, filled f) := rfl
    have hf : ∀ f, (Json.array (Field.all.map filled)).field? f = some (filled f) := by
      intro f
      rw [Json.field?, hg]
      cases f <;> rfl
    have hw : (Json.array (Field.all.map filled)).Shaped := by
      refine ⟨Nat.le_refl 9, ?_⟩
      intro f x hm
      rw [hg] at hm
      obtain ⟨f', -, hfx⟩ := List.mem_map.mp hm
      obtain ⟨rfl, rfl⟩ := Prod.mk.inj hfx
      show f'.Admits (((Json.object members).field? f').getD f'.blank)
      cases hx : (Json.object members).field? f' with
      | none => exact f'.admits_blank
      | some x => exact hv.typed f' x (mem_of_lookup_eq_some hx)
    exact ofJson_of_field? hw (fun f => by rw [hf]; rfl) hd

end Declaration

/-! ## Another value for a field -/

/-- The value `x` that the first document gives for a field is `y` in the second, which is
    the same otherwise. -/
inductive Field.Exchanges (f : Field) (x y : Json) : Json → Json → Prop
  | member {before after : List (String × Json)} {name : String} :
      Field.ofName? name = some f →
        Exchanges f x y (.object (before ++ (name, x) :: after)) (.object (before ++ (name, y) :: after))
  | item {before after : List Json} :
      Field.all[before.length]? = some f → Exchanges f x y (.array (before ++ x :: after)) (.array (before ++ y :: after))

theorem Field.Exchanges.given {f : Field} {x y v w : Json} (h : f.Exchanges x y v w) :
    ∃ before after, v.given = before ++ (f, x) :: after ∧ w.given = before ++ (f, y) :: after := by
  cases h with
  | member hf => exact ⟨_, _, Json.given_append_cons hf x _ _, Json.given_append_cons hf y _ _⟩
  | @item before after hf =>
    obtain ⟨hlength, hf⟩ := List.getElem?_eq_some_iff.mp hf
    have hsplit : Field.all = Field.all.take before.length ++ f :: Field.all.drop (before.length + 1) := by
      rw [← hf, List.getElem_cons_drop, List.take_append_drop]
    have hg : ∀ z, (Json.array (before ++ z :: after)).given = (Field.all.take before.length).zip before ++
        (f, z) :: (Field.all.drop (before.length + 1)).zip after := by
      intro z
      show Field.all.zip _ = _
      conv_lhs => rw [hsplit]
      rw [List.zip_append (by rw [List.length_take, Nat.min_eq_left hlength.le]), List.zip_cons_cons]
    exact ⟨_, _, hg x, hg y⟩

theorem Field.Exchanges.shaped {f : Field} {x y v w : Json} (h : f.Exchanges x y v w) (hy : f.Admits y)
    (hv : v.Shaped) : w.Shaped := by
  have htyped : ∀ g z, (g, z) ∈ w.given → g.Admits z := by
    obtain ⟨before, after, hgv, hgw⟩ := h.given
    intro g z hm
    rw [hgw] at hm
    have hold : ∀ p ∈ before ++ after, p.1.Admits p.2 := by
      intro p hp
      refine hv.typed p.1 p.2 (hgv ▸ ?_)
      rcases List.mem_append.mp hp with hp | hp
      · exact List.mem_append_left _ hp
      · exact List.mem_append_right _ (List.mem_cons_of_mem _ hp)
    rcases List.mem_append.mp hm with hm | hm
    · exact hold _ (List.mem_append_left _ hm)
    · rcases List.mem_cons.mp hm with hm | hm
      · cases hm
        exact hy
      · exact hold _ (List.mem_append_right _ hm)
  refine ⟨?_, htyped⟩
  cases h with
  | @member before after name hf =>
    have hnames : (before ++ (name, y) :: after).map (·.1) = (before ++ (name, x) :: after).map (·.1) := by simp
    obtain ⟨hk, hn⟩ := hv.known
    refine ⟨Json.looksLikeSpec_iff.mpr fun m hm => ?_, hnames ▸ hn⟩
    have hm' : m.1 ∈ (before ++ (name, x) :: after).map (·.1) := hnames ▸ List.mem_map.mpr ⟨m, hm, rfl⟩
    obtain ⟨m', hm', he⟩ := List.mem_map.mp hm'
    exact he ▸ Json.looksLikeSpec_iff.mp hk m' hm'
  | @item before after hf =>
    have hlength := hv.known
    simp only [Json.FieldsKnown, List.length_append, List.length_cons] at hlength ⊢
    exact hlength

/-- The declaration has the other value for the field. -/
theorem Declaration.ofJson_exchanged {f : Field} {x y v w : Json} {d : Declaration} (h : f.Exchanges x y v w)
    (hy : f.Admits y) (hd : ofJson v = .ok d) : d.value f = x ∧ ∃ d', d.set y f = .ok d' ∧ ofJson w = .ok d' := by
  obtain ⟨hv, rfl⟩ := ofJson_eq_ok_iff.mp hd
  obtain ⟨before, after, hgv, hgw⟩ := h.given
  have hn := hv.known.nodup_given
  rw [hgv] at hn
  have hnone := notMem_of_nodup hn
  have hfield : ∀ g, v.field? g = if g = f then some x else (before ++ after).lookup g := by
    intro g
    rw [Json.field?, hgv, lookup_append_cons hnone]
  have hfield' : ∀ g, w.field? g = if g = f then some y else (before ++ after).lookup g := by
    intro g
    rw [Json.field?, hgw, lookup_append_cons hnone]
  refine ⟨by rw [declared_value hv, hfield, if_pos rfl]; rfl, ?_⟩
  obtain ⟨d', hset, hvalue⟩ := v.declared.set_of_admits hy
  have hw := h.shaped hy hv
  refine ⟨d', hset, ofJson_eq_ok_iff.mpr ⟨hw, eq_of_value fun g => ?_⟩⟩
  rw [hvalue, declared_value hw, declared_value hv, hfield, hfield']
  by_cases hg : g = f
  · rw [if_pos hg, if_pos hg]
    rfl
  · rw [if_neg hg, if_neg hg, if_neg hg]

/-! ## Descriptions reworded -/

/-- The document gives the same node in other words, there or at one of the nodes below it. -/
inductive Json.Reworded : Json → Json → Prop
  | form {v w : Json} : v.Restated w → Reworded v w
  /-- The keys of a filter in another order, or some of them more often. -/
  | keys {f : Field} {l m : List Json} {v w : Json} :
      f = .included ∨ f = .excluded → (∀ x, x ∈ l ↔ x ∈ m) → f.Exchanges (.array l) (.array m) v w → Reworded v w
  | mode {f : Field} {s t : String} {v w : Json} :
      f = .stack ∨ f = .process → Text.SameButCase s t ∨ Text.Padded s t ∨ Text.Padded t s →
        f.Exchanges (.string s) (.string t) v w → Reworded v w
  | type {s t : String} {v w : Json} :
      Text.Padded s t ∨ Text.Padded t s → Field.type.Exchanges (.string s) (.string t) v w → Reworded v w
  | child {c d : Json} {before after : List Json} {v w : Json} :
      Reworded c d → Field.children.Exchanges (.array (before ++ c :: after)) (.array (before ++ d :: after)) v w →
        Reworded v w
  | member {c d : Json} {label : String} {before after first last : List Json} {v w : Json} :
      Reworded c d →
        Field.groups.Exchanges (.array (first ++ .array [.string label, .array (before ++ c :: after)] :: last))
          (.array (first ++ .array [.string label, .array (before ++ d :: after)] :: last)) v w → Reworded v w

/-! ## What is said stays the same -/

/-- A filter has the keys that its entries name. -/
theorem Keys.mem_iff_of_ofJson {axis : Axis} {entries : List Json} {k : Keys} (h : ofJson axis entries = .ok k)
    {key : Key} : key ∈ k ↔ ∃ x ∈ entries, Key.ofJson axis x = .ok key := by
  simp only [ofJson, bind_eq_ok_iff, pure_eq_ok_iff, mapM_eq_ok_iff] at h
  obtain ⟨keys, hkeys, rfl⟩ := h
  rw [mem_foldl_insert, or_iff_left (isEmpty_iff.mp rfl key)]
  constructor
  · exact exists_of_forall₂_right hkeys
  · rintro ⟨x, hx, hkey⟩
    obtain ⟨key', hm, hkey'⟩ := exists_of_forall₂_right hkeys.flip hx
    exact Except.ok.inj (hkey.symm.trans hkey') ▸ hm

/-- The order and the number of its entries do not count. -/
theorem Keys.ofJson_of_mem_iff {axis : Axis} {l m : List Json} {k : Keys} (h : ∀ x, x ∈ l ↔ x ∈ m)
    (hk : ofJson axis l = .ok k) : ofJson axis m = .ok k := by
  have hproblem : errorOf? (ofJson axis m) = none := by
    have hl := errorOf?_eq_none_iff.mpr ⟨k, hk⟩
    rw [Keys.errorOf?_ofJson, Json.keyProblem?_eq_none_iff] at hl ⊢
    exact fun x hx => hl x ((h x).mpr hx)
  obtain ⟨k', hk'⟩ := errorOf?_eq_none_iff.mp hproblem
  have heq : k' = k := by
    apply ext
    intro key
    simp only [mem_iff_of_ofJson hk', mem_iff_of_ofJson hk, h]
  exact heq ▸ hk'

/-- Keywords that are the same word, case and blanks apart, are read alike. -/
theorem readKeyword_of_word {α : Type} {words : List (String × α)} {unknown : String → Problem} {s t : String} {a : α}
    (h : Text.word s = Text.word t) (ha : readKeyword words unknown s = .ok a) :
    readKeyword words unknown t = .ok a := by
  rw [readKeyword_eq_ok_iff] at ha ⊢
  rw [← h, ha]

/-- Content does not come to an absent node if no list that was empty gets an entry. -/
theorem Declaration.nilContent?_eq_none_of {d d' : Declaration} (h : d.nilContent? = none)
    (hc : d.children = [] → d'.children = []) (hg : d.groups = [] → d'.groups = [])
    (hi : d.included = [] → d'.included = []) (he : d.excluded = [] → d'.excluded = []) : d'.nilContent? = none := by
  rw [nilContent?_eq_none_iff] at h ⊢
  exact ⟨hc h.1, hg h.2.1, hi h.2.2.1, he h.2.2.2⟩

theorem forall₂_of_exchange {α β : Type} {R : α → β → Prop} {before after : List α} {a b : α} {l : List β}
    (h : List.Forall₂ R (before ++ a :: after) l) (hab : ∀ c, R a c → R b c) :
    List.Forall₂ R (before ++ b :: after) l := by
  induction before generalizing l with
  | nil =>
    cases h with
    | cons hac h => exact .cons (hab _ hac) h
  | cons x before ih =>
    cases h with
    | cons hxy h => exact .cons hxy (ih h)

namespace Spec

/-- A node whose declaration has another value for a field stands for the same tree if that
    declaration does. -/
theorem build_of_exchanges {f : Field} {x y v w : Json} {s : Spec} (h : f.Exchanges x y v w) (hy : f.Admits y)
    (hs : build v = .ok s) :
    ∃ d d' : Declaration, d.value f = x ∧ d.set y f = .ok d' ∧ d.build = .ok s ∧
      (d'.build = .ok s → build w = .ok s) := by
  obtain ⟨d, hv, hd⟩ := build_eq_ok_iff.mp hs
  obtain ⟨hx, d', hset, hw⟩ := Declaration.ofJson_exchanged h hy hv
  exact ⟨d, d', hx, hset, Declaration.build_eq_ok_iff.mpr hd,
    fun hd' => build_eq_ok_iff.mpr ⟨d', hw, Declaration.build_eq_ok_iff.mp hd'⟩⟩

theorem build_keys {f : Field} (hf : f = .included ∨ f = .excluded) {l m : List Json} (hlm : ∀ x, x ∈ l ↔ x ∈ m)
    {v w : Json} (h : f.Exchanges (.array l) (.array m) v w) {s : Spec} (hs : build v = .ok s) : build w = .ok s := by
  have hempty : l = [] → m = [] := by
    rintro rfl
    exact List.eq_nil_iff_forall_not_mem.mpr fun x hx => List.not_mem_nil ((hlm x).mpr hx)
  rcases hf with rfl | rfl
  all_goals
    obtain ⟨d, d', hx, hset, hds, hw⟩ := build_of_exchanges h ⟨m, rfl⟩ hs
    cases hset
    obtain rfl := Json.array.inj hx
    obtain ⟨hd, hc, hg⟩ := Declaration.build_eq_ok_iff.mp hds
    refine hw (Declaration.build_eq_ok_iff.mpr ⟨?_, hc, hg⟩)
  · exact { hd with
      absent := fun hn => Declaration.nilContent?_eq_none_of (hd.absent hn) id id hempty id
      included := Keys.ofJson_of_mem_iff hlm hd.included }
  · exact { hd with
      absent := fun hn => Declaration.nilContent?_eq_none_of (hd.absent hn) id id id hempty
      excluded := Keys.ofJson_of_mem_iff hlm hd.excluded }

theorem build_mode {f : Field} (hf : f = .stack ∨ f = .process) {a b : String} (hab : Text.word a = Text.word b)
    {v w : Json} (h : f.Exchanges (.string a) (.string b) v w) {s : Spec} (hs : build v = .ok s) :
    build w = .ok s := by
  rcases hf with rfl | rfl
  all_goals
    obtain ⟨d, d', hx, hset, hds, hw⟩ := build_of_exchanges h (Or.inr ⟨b, rfl⟩) hs
    cases hset
    obtain ⟨hd, hc, hg⟩ := Declaration.build_eq_ok_iff.mp hds
    refine hw (Declaration.build_eq_ok_iff.mpr ⟨?_, hc, hg⟩)
  · have ha : d.stack = some a := Declaration.text?_inj (b := some a) hx
    have hstack := hd.stack
    rw [ha] at hstack
    exact { hd with stack := readKeyword_of_word hab hstack }
  · have ha : d.process = some a := Declaration.text?_inj (b := some a) hx
    have hprocess := hd.process
    rw [ha] at hprocess
    exact { hd with process := readKeyword_of_word hab hprocess }

theorem build_type {a b : String} (hab : Text.trim a = Text.trim b) {v w : Json}
    (h : Field.type.Exchanges (.string a) (.string b) v w) {s : Spec} (hs : build v = .ok s) : build w = .ok s := by
  obtain ⟨d, d', hx, hset, hds, hw⟩ := build_of_exchanges h (Or.inr ⟨b, rfl⟩) hs
  cases hset
  obtain ⟨hd, hc, hg⟩ := Declaration.build_eq_ok_iff.mp hds
  have ha : d.type = some a := Declaration.text?_inj (b := some a) hx
  have htype := hd.type
  rw [ha] at htype
  exact hw (Declaration.build_eq_ok_iff.mpr ⟨{ hd with type := htype.trans (congrArg TypeTag.ofText hab) }, hc, hg⟩)

/-- A description in other words stands for the same tree. -/
theorem build_reworded {v w : Json} (h : v.Reworded w) {s : Spec} (hs : build v = .ok s) : build w = .ok s := by
  induction h generalizing s with
  | form h =>
    obtain ⟨d, hd, hrest⟩ := build_eq_ok_iff.mp hs
    exact build_eq_ok_iff.mpr ⟨d, Declaration.ofJson_restated h hd, hrest⟩
  | keys hf hlm h => exact build_keys hf hlm h hs
  | mode hf hab h =>
    refine build_mode hf ?_ h hs
    rcases hab with hab | hab | hab
    · exact Text.word_of_sameButCase hab
    · rw [Text.word, Text.word, Text.trim_of_padded hab]
    · rw [Text.word, Text.word, Text.trim_of_padded hab]
  | type hab h => exact build_type (hab.elim (fun h => (Text.trim_of_padded h).symm) Text.trim_of_padded) h hs
  | @child c c' before after v w _ h ih =>
    obtain ⟨d, d', hx, hset, hds, hw⟩ := build_of_exchanges h ⟨_, rfl⟩ hs
    cases hset
    have hx := Json.array.inj hx
    obtain ⟨hd, hc, hg⟩ := Declaration.build_eq_ok_iff.mp hds
    have hsome : d.children ≠ [] := by simp [hx]
    rw [hx] at hc
    refine hw (Declaration.build_eq_ok_iff.mpr ⟨{ hd with absent := ?_ }, forall₂_of_exchange hc fun _ => ih, hg⟩)
    exact fun hn => Declaration.nilContent?_eq_none_of (hd.absent hn) (absurd · hsome) id id id
  | @member c c' label before after first last v w _ h ih =>
    obtain ⟨d, d', hx, hset, hds, hw⟩ := build_of_exchanges h ⟨_, rfl⟩ hs
    cases hset
    have hx := Json.array.inj hx
    obtain ⟨hd, hc, hg⟩ := Declaration.build_eq_ok_iff.mp hds
    have hsome : d.groups ≠ [] := by simp [hx]
    rw [hx] at hg
    refine hw (Declaration.build_eq_ok_iff.mpr ⟨{ hd with absent := ?_ }, hc, forall₂_of_exchange hg ?_⟩)
    · exact fun hn => Declaration.nilContent?_eq_none_of (hd.absent hn) id (absurd · hsome) id id
    · intro g hbuilt
      obtain ⟨items, hitems, hm⟩ := Group.build_eq_ok_iff.mp hbuilt
      cases hitems
      exact Group.build_eq_ok_iff.mpr ⟨_, rfl, forall₂_of_exchange hm fun _ => ih⟩

/-- Whatever is reworded in a description, in whatever places, it is a description still and
    stands for the same tree. -/
theorem rewording_keeps_the_tree {v w : Json} {s : Spec} (h : Relation.ReflTransGen Json.Reworded v w)
    (hs : ofJson v = .ok s) : ofJson w = .ok s := by
  obtain ⟨t, ht, rfl⟩ := ofJson_eq_ok_iff.mp hs
  refine ofJson_eq_ok_iff.mpr ⟨t, ?_, rfl⟩
  clear hs
  induction h with
  | refl => exact ht
  | tail _ h ih => exact build_reworded h ih

/-- A member of a group gets its keys in another order and once more, and is then written as
    an array; above it the label gets its other name, and a mode another case and a blank. -/
theorem rewording_keeps_the_tree_of_a_group :
    let cell (keys : List Json) : Json := .object [("include", .array keys)]
    let row (label mode : String) (member : Json) : Json :=
      .object [(label, .string "x"), ("stack", .string mode),
        ("groups", .array [.array [.string "g", .array [member]]])]
    let listed : Json :=
      .array [.null, .null, .null, .null, .array [.int 0, .int 0, .string "a"], .array [], .null, .array [], .array []]
    let v := row "as" "Spread" (cell [.string "a", .int 0])
    let w := row "name" "sprEAD\t" listed
    let member : Spec := ((ofType "").including (.position 0)).including (.name "a")
    let s : Spec := refresh { label := some "x", stack := .spread, groups := [⟨"g", [member]⟩] }
    Relation.ReflTransGen Json.Reworded v w ∧ ofJson v = .ok s ∧ ofJson w = .ok s := by
  intro cell row listed v w member s
  have hkeys : Json.Reworded (cell [.string "a", .int 0]) (cell [.int 0, .int 0, .string "a"]) := by
    refine .keys (Or.inl rfl) ?_ (@Field.Exchanges.member .included _ _ [] [] _ rfl)
    intro x
    simp only [List.mem_cons, List.not_mem_nil, or_false]
    tauto
  have hlisted : Json.Reworded (cell [.int 0, .int 0, .string "a"]) listed := .form .listed
  have hbelow : ∀ {c d : Json}, c.Reworded d → Json.Reworded (row "as" "Spread" c) (row "as" "Spread" d) := by
    intro c d h
    exact @Json.Reworded.member c d "g" [] [] [] [] _ _ h
      (@Field.Exchanges.member .groups _ _ [("as", .string "x"), ("stack", .string "Spread")] [] _ rfl)
  have hlabel : Json.Reworded (row "as" "Spread" listed) (row "name" "Spread" listed) :=
    .form (@Json.Restated.renamed [] _ _ _ _ (Or.inl ⟨rfl, rfl⟩))
  have hmode : ∀ {a b : String}, Text.SameButCase a b ∨ Text.Padded a b ∨ Text.Padded b a →
      Json.Reworded (row "name" a listed) (row "name" b listed) := by
    intro a b h
    exact .mode (Or.inl rfl) h (@Field.Exchanges.member .stack _ _ [("name", .string "x")] _ _ rfl)
  have hcase : Text.SameButCase "Spread" "sprEAD" := by unfold Text.SameButCase; decide +kernel
  have hpad : Text.Padded "sprEAD" "sprEAD\t" :=
    ⟨[], ['\t'], nofun, List.forall_mem_singleton.mpr (by decide +kernel), rfl⟩
  have h : Relation.ReflTransGen Json.Reworded v w :=
    ((((Relation.ReflTransGen.single (hbelow hkeys)).tail (hbelow hlisted)).tail hlabel).tail
      (hmode (Or.inl hcase))).tail (hmode (Or.inr (Or.inl hpad)))
  have hmember : build (cell [.string "a", .int 0]) = .ok member := by
    refine build_eq_ok_iff.mpr ⟨{ included := [.string "a", .int 0] }, rfl, ?_, .nil, .nil⟩
    have hincluded : Keys.ofJson .included [.string "a", .int 0] = .ok member.filter.included := rfl
    exact ⟨by decide +kernel, nofun, rfl, rfl, rfl, hincluded, rfl, rfl, rfl⟩
  have hgroup : Group.build (.array [.string "g", .array [cell [.string "a", .int 0]]]) = .ok ⟨"g", [member]⟩ :=
    Group.build_eq_ok_iff.mpr ⟨_, rfl, .cons hmember .nil⟩
  have hstack : Stack.ofKeyword "Spread" = .ok .spread := readKeyword_eq_ok_iff.mpr (by decide +kernel)
  have hrow : build v = .ok { label := some "x", stack := .spread, groups := [⟨"g", [member]⟩] } := by
    refine build_eq_ok_iff.mpr ⟨{ label := some "x", stack := some "Spread", groups := [_] }, rfl, ?_, .nil,
      .cons hgroup .nil⟩
    exact ⟨by decide +kernel, nofun, rfl, hstack, rfl, rfl, rfl, rfl, rfl⟩
  have hv : ofJson v = .ok s := ofJson_eq_ok_iff.mpr ⟨_, hrow, rfl⟩
  exact ⟨h, hv, rewording_keeps_the_tree h hv⟩

end Spec

end Harvest
