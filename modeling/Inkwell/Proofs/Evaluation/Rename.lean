import Inkwell.Proofs.Evaluation.Renumber
import Inkwell.Proofs.Tree.Rename

/-!
# Renaming parameters

A parameter may have another name, since scopes are lexical. Two runs that differ in the names of
some parameters create the same scopes. Some of them belong to calls of literals that were renamed,
or of literals inside of these: there the new name is bound where the other run binds the old one.
In all other scopes the two runs agree. A name that is looked up from a scope of a renamed literal
and is not found in the scopes of the literal is not the old one, which is bound there, so that it
is the same name in both runs further out.
-/

namespace Inkwell

variable {old new : String} {depth : Nat}

/-- Where a tree or a scope is: in a literal that was renamed, or in none. -/
inductive Place where
  | outside | inside

namespace Place

variable {place : Place} {a b x y : String}

/-- The names that stand for each other in a place. -/
def NameRel (old new : String) : Place → String → String → Prop
  | outside, x, y => x = y
  | inside, x, y => x ≠ new ∧ y = newName old new x

/-- The expressions that stand for each other in a place. -/
def ExprRel (old new : String) : Place → Expr → Expr → Prop
  | outside, e, f => e.Renames old new f
  | inside, e, f => new ∉ e.names ∧ f = e.rename old new

/-- The blocks that stand for each other in a place. -/
def BlockRel (old new : String) : Place → Block → Block → Prop
  | outside, b, c => b.Renames old new c
  | inside, b, c => new ∉ b.names ∧ c = b.rename old new

/-- The statements that stand for each other in a place. -/
def StmtRel (old new : String) : Place → Stmt → Stmt → Prop
  | outside, s, r => s.Renames old new r
  | inside, s, r => new ∉ s.names ∧ r = s.rename old new

/-- In one place different names stand for different names. -/
theorem nameRel_eq_iff (hx : place.NameRel old new x y) (ha : place.NameRel old new a b) :
    x = a ↔ y = b := by
  cases place with
  | outside =>
    rw [show x = y from hx, show a = b from ha]
  | inside => rw [hx.2, ha.2, newName_eq_iff hx.1 ha.1]

/-- Expressions in a row are related to those with the name replaced. -/
theorem forall₂_exprs : ∀ {es : List Expr}, new ∉ Expr.namesAll es →
    List.Forall₂ (inside.ExprRel old new) es (Expr.renameAll old new es)
  | [], _ => .nil
  | _ :: _, h => by
    rw [Expr.namesAll, List.mem_append, not_or] at h
    exact .cons ⟨h.1, rfl⟩ (forall₂_exprs h.2)

theorem forall₂_stmts : ∀ {ss : List Stmt}, new ∉ Stmt.namesAll ss →
    List.Forall₂ (inside.StmtRel old new) ss (Stmt.renameAll old new ss)
  | [], _ => .nil
  | _ :: _, h => by
    rw [Stmt.namesAll, List.mem_append, not_or] at h
    exact .cons ⟨h.1, rfl⟩ (forall₂_stmts h.2)

/-- Related expressions have the same shape, and related parts. -/
theorem expr_shape {e f : Expr} (h : place.ExprRel old new e f) :
    Expr.Shape (place.ExprRel old new) (place.BlockRel old new) (place.NameRel old new) e f := by
  cases place with
  | outside =>
    have hr : e.Renames old new f := h
    cases hr with
    | ident => exact .ident rfl
    | int => exact .int
    | bool => exact .bool
    | unary ha => exact .unary ha
    | binary ha hc => exact .binary ha hc
    | cond ha hc he => exact .cond ha hc he
    | fn => exact .fn
    | call ha hes => exact .call ha hes
    | literal => exact .fn
  | inside =>
    obtain ⟨hnew, rfl⟩ := h
    cases e with
    | ident =>
      rw [Expr.names, List.mem_singleton] at hnew
      exact .ident ⟨Ne.symm hnew, rfl⟩
    | int => exact .int
    | bool => exact .bool
    | unary => exact .unary ⟨hnew, rfl⟩
    | binary =>
      rw [Expr.names, List.mem_append, not_or] at hnew
      exact .binary ⟨hnew.1, rfl⟩ ⟨hnew.2, rfl⟩
    | cond token condition consequence alternative =>
      rw [Expr.names, List.mem_append, not_or, List.mem_append, not_or] at hnew
      refine .cond ⟨hnew.1, rfl⟩ ⟨hnew.2.1, rfl⟩ ?_
      cases alternative with
      | none => exact .none
      | some => exact .some ⟨hnew.2.2, rfl⟩
    | fn => exact .fn
    | call =>
      rw [Expr.names, List.mem_append, not_or] at hnew
      exact .call ⟨hnew.1, rfl⟩ (forall₂_exprs hnew.2)

theorem block_shape {b c : Block} (h : place.BlockRel old new b c) :
    Block.Shape (place.StmtRel old new) b c := by
  cases place with
  | outside =>
    have hr : b.Renames old new c := h
    cases hr with
    | mk hss => exact .mk hss
  | inside =>
    obtain ⟨hnew, rfl⟩ := h
    cases b with
    | mk => exact .mk (forall₂_stmts hnew)

theorem stmt_shape {s r : Stmt} (h : place.StmtRel old new s r) :
    Stmt.Shape (place.ExprRel old new) (place.BlockRel old new) (place.NameRel old new) s r := by
  cases place with
  | outside =>
    have hr : s.Renames old new r := h
    cases hr with
    | define ha => exact .define rfl ha
    | ret ha => exact .ret ha
    | bare ha => exact .bare ha
    | block hb => exact .block hb
  | inside =>
    obtain ⟨hnew, rfl⟩ := h
    cases s with
    | define =>
      rw [Stmt.names, List.mem_cons, not_or] at hnew
      exact .define ⟨Ne.symm hnew.1, rfl⟩ ⟨hnew.2, rfl⟩
    | ret token operand =>
      cases operand with
      | none => exact .ret .none
      | some => exact .ret (.some ⟨hnew, rfl⟩)
    | bare => exact .bare ⟨hnew, rfl⟩
    | block => exact .block ⟨hnew, rfl⟩

end Place

/-- Values of two runs, where of every scope it is known in what place it is: functions whose
literals rename parameters, and otherwise the same values. -/
inductive Value.Renamed (old new : String) (places : List Place) : Value → Value → Prop
  | int (number : Int) : Renamed old new places (.int number) (.int number)
  | bool (truth : Bool) : Renamed old new places (.bool truth) (.bool truth)
  | null : Renamed old new places .null .null
  | error (message : String) : Renamed old new places (.error message) (.error message)
  | returned {v w : Value} : Renamed old new places v w →
    Renamed old new places (.returned v) (.returned w)
  | outside {parameters : List String} {b c : Block} {scope : ScopeId} :
    places[scope]? = some .outside → b.Renames old new c →
    Renamed old new places (.fn parameters b scope) (.fn parameters c scope)
  /-- A literal that was renamed, or one inside of it. -/
  | inside {place : Place} {parameters : List String} {b : Block} {scope : ScopeId} :
    places[scope]? = some place → (place = .outside → old ∈ parameters) → new ∉ parameters →
    new ∉ b.names → Renamed old new places (.fn parameters b scope)
      (.fn (parameters.map (newName old new)) (b.rename old new) scope)

/-- Bindings of scopes in one place: what stands for each other is bound to related values. -/
def Bindings.Renamed (old new : String) (places : List Place) (place : Place)
    (bindings other : Bindings) : Prop :=
  ∀ x y, place.NameRel old new x y →
    Option.Rel (Value.Renamed old new places) (bindings.get? x) (other.get? y)

/-- Scopes in one place. -/
structure Scope.Renamed (old new : String) (places : List Place) (place : Place)
    (scope other : Scope) : Prop where
  bound : scope.bindings.Renamed old new places place other.bindings
  outer : other.outer = scope.outer
  /-- Around what is outside everything is outside. -/
  around {id : ScopeId} : scope.outer = some id →
    ∃ further, places[id]? = some further ∧ (place = .outside → further = .outside)
  /-- The outermost scope of a renamed literal binds the old name. -/
  outermost : place = .inside → scope.bindings.get? old = none →
    ∃ id, scope.outer = some id ∧ places[id]? = some .inside

/-- Heaps with the same scopes, of which it is known where they are. -/
structure Heap.Renamed (old new : String) (places : List Place) (heap other : Heap) : Prop where
  size : heap.scopes.size = places.length
  size' : other.scopes.size = places.length
  scope {id : ScopeId} {s : Scope} {place : Place} : heap.scopes[id]? = some s →
    places[id]? = some place →
    ∃ t, other.scopes[id]? = some t ∧ s.Renamed old new places place t

variable {places more : List Place} {place : Place} {x y : String} {v w : Value} {id : ScopeId}

/-- A scope keeps its place when more places are known. -/
theorem Place.later_eq (hle : places <+: more) (h : places[id]? = some place) :
    more[id]? = some place := by
  obtain ⟨rest, rfl⟩ := hle
  rw [List.getElem?_append_left (List.getElem?_eq_some_iff.mp h).1, h]

namespace Value.Renamed

/-- Values that correspond still do when more places are known. -/
theorem later (hle : places <+: more) (h : v.Renamed old new places w) :
    v.Renamed old new more w := by
  induction h with
  | int => exact .int _
  | bool => exact .bool _
  | null => exact .null
  | error => exact .error _
  | returned _ ih => exact .returned ih
  | outside hs hb => exact .outside (Place.later_eq hle hs) hb
  | inside hs hold hnew hb => exact .inside (Place.later_eq hle hs) hold hnew hb

/-- Values that correspond are alike. -/
theorem alike (h : v.Renamed old new places w) : v.Alike w := by
  induction h with
  | int => exact .int _
  | bool => exact .bool _
  | null => exact .null
  | error => exact .error _
  | returned _ ih => exact .returned ih
  | outside | inside => exact .fn

/-- They can be shown within the same depth. -/
theorem fits (h : v.Renamed old new places w) (hfit : v.fits depth = true) :
    w.fits depth = true := by
  induction h with
  | int | bool | null | error => rfl
  | returned _ ih => exact ih hfit
  | outside _ hb => exact (Expr.fits_renames old new depth).2.1 _ _ hb hfit
  | inside => exact (Block.fits_rename _).trans hfit

/-- Where all scopes are outside, values stand for themselves. -/
theorem refl (h : ∀ id ∈ v.captured?, places[id]? = some .outside) :
    v.Renamed old new places v := by
  induction v with
  | int => exact .int _
  | bool => exact .bool _
  | null => exact .null
  | error => exact .error _
  | returned _ ih => exact .returned (ih h)
  | fn _ b id => exact .outside (h id rfl) (Block.Renames.refl b)

/-- Values that contain no functions are the same. -/
theorem eq (h : v.Renamed old new places w) (hv : v.captured? = none) : w = v := by
  induction h with
  | int | bool | null | error => rfl
  | returned _ ih => rw [ih hv]
  | outside | inside => cases hv

end Value.Renamed

namespace Bindings.Renamed

variable {bindings other : Bindings}

/-- No bindings correspond to none. -/
theorem nil : Bindings.Renamed old new places place [] [] := fun _ _ _ => .none

/-- Bindings that correspond still do when more places are known. -/
theorem later (hle : places <+: more) (h : bindings.Renamed old new places place other) :
    bindings.Renamed old new more place other := by
  intro a b hab
  have hab := h a b hab
  generalize bindings.get? a = found, other.get? b = found' at hab ⊢
  cases hab with
  | none => exact .none
  | some hv => exact .some (hv.later hle)

/-- They do so after related names are set to values that correspond. -/
theorem set (h : bindings.Renamed old new places place other) (hxy : place.NameRel old new x y)
    (hv : v.Renamed old new places w) :
    (bindings.set x v).Renamed old new places place (other.set y w) := by
  intro a b hab
  rw [Bindings.get?_set, Bindings.get?_set]
  by_cases heq : x = a
  · rw [if_pos heq, if_pos ((Place.nameRel_eq_iff hxy hab).mp heq)]
    exact .some hv
  · rw [if_neg heq, if_neg fun h' => heq ((Place.nameRel_eq_iff hxy hab).mpr h')]
    exact h a b hab

end Bindings.Renamed

/-- The bindings of two calls with related parameters and arguments. -/
theorem argumentBindings_renamed {ps qs : List String} {as bs : List Value}
    (hps : List.Forall₂ (place.NameRel old new) ps qs)
    (has : List.Forall₂ (Value.Renamed old new places) as bs) :
    (argumentBindings ps as).Renamed old new places place (argumentBindings qs bs) := by
  have hgo : ∀ {bindings other : Bindings}, bindings.Renamed old new places place other →
      (argumentBindings.go bindings ps as).Renamed old new places place
        (argumentBindings.go other qs bs) := by
    induction hps generalizing as bs with
    | nil => exact fun hb => hb
    | cons hxy _ ih =>
      intro bindings other hb
      cases has with
      | nil => exact ih .nil (hb.set hxy .null)
      | cons hv has => exact ih has (hb.set hxy hv)
  exact hgo .nil

/-- A call binds every parameter. -/
theorem argumentBindings_bound {parameters : List String} {arguments : List Value}
    (h : x ∈ parameters) : (argumentBindings parameters arguments).get? x ≠ none := by
  have hgo : ∀ (names : List String) (values : List Value) (bindings : Bindings),
      bindings.get? x ≠ none ∨ x ∈ names →
      (argumentBindings.go bindings names values).get? x ≠ none := by
    intro names
    induction names with
    | nil => exact fun _ _ hb => hb.resolve_right List.not_mem_nil
    | cons name names ih =>
      intro values bindings hb
      have hset : ∀ value, (bindings.set name value).get? x ≠ none ∨ x ∈ names := by
        intro value
        rw [Bindings.get?_set]
        split
        · exact .inl nofun
        · rename_i hne
          exact hb.imp_right fun hmem => (List.mem_cons.mp hmem).resolve_left (Ne.symm hne)
      cases values with
      | nil => exact ih _ _ (hset _)
      | cons first rest => exact ih _ _ (hset _)
  exact hgo _ _ _ (.inr h)

namespace Scope.Renamed

variable {s t : Scope}

/-- Scopes that correspond still do when more places are known. -/
theorem later (hle : places <+: more) (h : s.Renamed old new places place t) :
    s.Renamed old new more place t where
  bound := h.bound.later hle
  outer := h.outer
  around ho := by
    obtain ⟨further, hfurther, hout⟩ := h.around ho
    exact ⟨further, Place.later_eq hle hfurther, hout⟩
  outermost hin hold := by
    obtain ⟨id, ho, hid⟩ := h.outermost hin hold
    exact ⟨id, ho, Place.later_eq hle hid⟩

/-- What is not bound in a scope has names around it that stand for each other there. -/
theorem name_around (h : s.Renamed old new places place t) (hxy : place.NameRel old new x y)
    (hx : s.bindings.get? x = none) (ho : s.outer = some id) :
    ∃ further, places[id]? = some further ∧ further.NameRel old new x y := by
  obtain ⟨further, hfurther, hout⟩ := h.around ho
  refine ⟨further, hfurther, ?_⟩
  cases place with
  | outside => rwa [hout rfl]
  | inside =>
    cases further with
    | inside => exact hxy
    | outside =>
      -- the old name is bound here, so that this is another one
      have hne : x ≠ old := by
        rintro rfl
        obtain ⟨id', ho', hin⟩ := h.outermost rfl hx
        rw [ho] at ho'
        cases ho'
        rw [hfurther] at hin
        cases hin
      exact (hxy.2.trans (newName_of_ne hne)).symm

/-- What is bound nowhere on the chain has one name. -/
theorem name_eq (h : s.Renamed old new places place t) (hxy : place.NameRel old new x y)
    (hx : s.bindings.get? x = none) (ho : s.outer = none) : x = y := by
  cases place with
  | outside => exact hxy
  | inside =>
    have hne : x ≠ old := by
      rintro rfl
      obtain ⟨id, ho', -⟩ := h.outermost rfl hx
      rw [ho] at ho'
      cases ho'
    exact (hxy.2.trans (newName_of_ne hne)).symm

/-- They do so after a name is set in both. -/
theorem set (h : s.Renamed old new places place t) (hxy : place.NameRel old new x y)
    (hv : v.Renamed old new places w) :
    Scope.Renamed old new places place { s with bindings := s.bindings.set x v }
      { t with bindings := t.bindings.set y w } where
  bound := h.bound.set hxy hv
  outer := h.outer
  around := h.around
  outermost hin hold := by
    rw [Bindings.get?_set] at hold
    split at hold
    · cases hold
    · exact h.outermost hin hold

end Scope.Renamed

namespace Heap.Renamed

variable {heap other : Heap}

/-- What is found on two chains is related, and what is found nowhere has one name. -/
theorem get? (h : heap.Renamed old new places other) (hid : places[id]? = some place)
    (hxy : place.NameRel old new x y) {found : Option Value}
    (hget : heap.get? x depth id = .ok found) :
    ∃ found', other.get? y depth id = .ok found' ∧
      Option.Rel (Value.Renamed old new places) found found' ∧ (found = none → x = y) := by
  induction depth generalizing id place with
  | zero => cases hget
  | succ depth ih =>
    have hlt : id < heap.scopes.size := h.size ▸ (List.getElem?_eq_some_iff.mp hid).1
    have hs := Array.getElem?_eq_getElem hlt
    obtain ⟨t, ht, hst⟩ := h.scope hs hid
    unfold Heap.get? at hget ⊢
    rw [hs] at hget
    rw [ht]
    dsimp only at hget ⊢
    have hbound := hst.bound x y hxy
    cases hx : heap.scopes[id].bindings.get? x with
    | some v =>
      rw [hx] at hget hbound
      generalize t.bindings.get? y = found' at hbound ⊢
      cases hbound with
      | some hv =>
        cases hget
        exact ⟨_, rfl, .some hv, by rintro ⟨⟩⟩
    | none =>
      rw [hx] at hget hbound
      generalize t.bindings.get? y = found' at hbound ⊢
      cases hbound
      rw [hst.outer]
      cases ho : heap.scopes[id].outer with
      | none =>
        rw [ho] at hget
        cases hget
        exact ⟨none, rfl, .none, fun _ => hst.name_eq hxy hx ho⟩
      | some outer =>
        rw [ho] at hget
        obtain ⟨further, hfurther, hxy'⟩ := hst.name_around hxy hx ho
        exact ih hfurther hxy' hget

/-- Heaps correspond after a name is set in scopes that correspond. -/
theorem set (h : heap.Renamed old new places other) (hid : places[id]? = some place)
    (hxy : place.NameRel old new x y) (hv : v.Renamed old new places w) :
    (heap.set id x v).Renamed old new places (other.set id y w) where
  size := (Heap.size_set _ _ _ _).trans h.size
  size' := (Heap.size_set _ _ _ _).trans h.size'
  scope {target s place'} hs hplace := by
    unfold Heap.set at hs ⊢
    rw [Array.getElem?_modify] at hs ⊢
    split at hs
    · subst id
      rw [hid] at hplace
      cases hplace
      obtain ⟨u, hu, rfl⟩ := Option.map_eq_some_iff.mp hs
      obtain ⟨t, ht, hst⟩ := h.scope hu hid
      rw [if_pos rfl, ht]
      exact ⟨_, rfl, hst.set hxy hv⟩
    · rename_i hne
      rw [if_neg hne]
      exact h.scope hs hplace

/-- They do so after scopes that correspond are created. -/
theorem allocate (h : heap.Renamed old new places other) {s t : Scope}
    (hst : s.Renamed old new (places ++ [place]) place t) :
    (heap.allocate s).2.Renamed old new (places ++ [place]) (other.allocate t).2 where
  size := by simp [h.size]
  size' := by simp [h.size']
  scope {target found place'} hfound hplace := by
    unfold Heap.allocate at hfound ⊢
    rw [Array.getElem?_push] at hfound ⊢
    split at hfound
    · subst target
      cases hfound
      rw [h.size, List.getElem?_concat_length] at hplace
      cases hplace
      rw [if_pos (h.size.trans h.size'.symm)]
      exact ⟨t, rfl, hst⟩
    · rename_i hne
      have hlt : target < places.length := h.size ▸ (Array.getElem?_eq_some_iff.mp hfound).1
      rw [List.getElem?_append_left hlt] at hplace
      obtain ⟨u, hu, hrel⟩ := h.scope hfound hplace
      rw [if_neg (h.size'.symm ▸ Nat.ne_of_lt hlt)]
      exact ⟨u, hu, hrel.later (List.prefix_append _ _)⟩

end Heap.Renamed

/-- A run with other names for some parameters. -/
def Coupling.rename (verbosity : Int) (old new : String) : Coupling where
  loud := verbosity
  quiet := verbosity
  quiet_le := Int.le_refl _
  depth := Eq
  depth_succ := @Coupling.depth_succ_of_eq
  World := List Place
  later := List.IsPrefix
  later_refl := List.prefix_refl
  later_trans := List.IsPrefix.trans
  Mode := Place
  name := Place.NameRel old new
  expr := Place.ExprRel old new
  block := Place.BlockRel old new
  stmt := Place.StmtRel old new
  expr_shape := Place.expr_shape
  block_shape := Place.block_shape
  stmt_shape := Place.stmt_shape
  value := Value.Renamed old new
  value_later hle h := h.later hle
  value_alike h := h.alike
  value_self {w v} hf hr := by
    cases v with
    | fn => exact absurd rfl hf
    | returned => exact absurd rfl hr
    | int => exact .int _
    | bool => exact .bool _
    | null => exact .null
    | error => exact .error _
  value_returned := ⟨fun h => by cases h; assumption, .returned⟩
  scope places place s t := s = t ∧ places[s]? = some place
  scope_later hle h := ⟨h.1, Place.later_eq hle h.2⟩
  fn {places place s t a b ps qs c d} hs h := by
    obtain ⟨rfl, hs⟩ := hs
    cases place with
    | outside =>
      have hr : (Expr.fn a ps c).Renames old new (.fn b qs d) := h
      generalize hf : Expr.fn b qs d = f at hr
      cases hr with
      | fn hbody =>
        cases hf
        exact .outside hs hbody
      | literal hold hnew =>
        cases hf
        rw [Expr.names, List.mem_append, not_or] at hnew
        rw [Ident.map_name_rename]
        exact .inside hs (fun _ => hold) hnew.1 hnew.2
    | inside =>
      obtain ⟨hnew, hf⟩ := h
      cases hf
      rw [Expr.names, List.mem_append, not_or] at hnew
      rw [Ident.map_name_rename]
      exact .inside hs nofun hnew.1 hnew.2
  machine places m n := m.heap.Renamed old new places n.heap
  machine_enter h := h
  machine_leave h := h
  machine_get hm hs hxy hd hget := by
    obtain ⟨rfl, hs⟩ := hs
    cases hd
    exact hm.get? hs hxy hget
  machine_set hm hs hxy hv := by
    obtain ⟨rfl, hs⟩ := hs
    exact hm.set hs hxy hv
  machine_call {places m n ps qs b c s t as bs} hm hv has := by
    have hsize : m.heap.scopes.size = n.heap.scopes.size := hm.size.trans hm.size'.symm
    have hlast {place : Place} : (places ++ [place])[m.heap.scopes.size]? = some place := by
      rw [hm.size, List.getElem?_concat_length]
    cases hv with
    | outside hs hbody =>
      refine ⟨places ++ [.outside], .outside, List.prefix_append _ _,
        hm.allocate ⟨?_, rfl, ?_, nofun⟩, ⟨hsize, hlast⟩, hbody⟩
      · have hps : List.Forall₂ (Place.outside.NameRel old new) ps ps :=
          List.forall₂_same.mpr fun _ _ => rfl
        exact (argumentBindings_renamed hps has).later (List.prefix_append _ _)
      · rintro _ ⟨⟩
        exact ⟨.outside, Place.later_eq (List.prefix_append _ _) hs, fun _ => rfl⟩
    | @inside place _ _ _ hs hold hnew hbody =>
      refine ⟨places ++ [.inside], .inside, List.prefix_append _ _,
        hm.allocate ⟨?_, rfl, ?_, ?_⟩, ⟨hsize, hlast⟩, hbody, rfl⟩
      · refine (argumentBindings_renamed ?_ has).later (List.prefix_append _ _)
        rw [List.forall₂_map_right_iff, List.forall₂_same]
        exact fun x hx => ⟨fun heq => hnew (heq ▸ hx), rfl⟩
      · rintro _ ⟨⟩
        exact ⟨place, Place.later_eq (List.prefix_append _ _) hs, nofun⟩
      · intro _ hunbound
        cases place with
        | outside => exact absurd hunbound (argumentBindings_bound (hold rfl))
        | inside => exact ⟨s, rfl, Place.later_eq (List.prefix_append _ _) hs⟩
  text _ _ := True
  name_text _ := trivial
  parameters_text h := by
    cases h with
    | outside => exact List.forall₂_same.mpr fun _ _ => trivial
    | inside => exact List.forall₂_map_right_iff.mpr (List.forall₂_same.mpr fun _ _ => trivial)
  value_text h hd hfit := ⟨hd ▸ h.fits hfit, trivial⟩
  expr_text {place a b d e} h hd hfit := by
    cases hd
    refine ⟨?_, trivial⟩
    cases place with
    | outside => exact (Expr.fits_renames old new d).1 _ _ h hfit
    | inside => rwa [h.2, Expr.fits_rename]
  machine_note h _ := by rwa [Machine.heap_note, Machine.heap_note]

/-- On a heap in which all numbers stand for scopes, all of them outside of what is renamed, nothing
has another name. -/
theorem Heap.Closed.renamed {heap : Heap} (h : heap.Closed) :
    heap.Renamed old new (List.replicate heap.scopes.size .outside) heap where
  size := List.length_replicate.symm
  size' := List.length_replicate.symm
  scope {id s place} hs hplace := by
    have hout : ∀ {target}, target < heap.scopes.size →
        (List.replicate heap.scopes.size Place.outside)[target]? = some .outside := fun hlt => by
      rw [List.getElem?_replicate, if_pos hlt]
    rw [hout (Array.getElem?_eq_some_iff.mp hs).1] at hplace
    cases hplace
    refine ⟨s, hs, ?_, rfl, fun ho => ⟨.outside, hout (h.outer hs ho), fun _ => rfl⟩, nofun⟩
    rintro x y rfl
    cases hv : s.bindings.get? x with
    | none => exact .none
    | some v =>
      exact .some (.refl fun captured hc => hout (h.bound hs (Bindings.mem_of_get? hv) hc))

/-- Parameters may be renamed. If some function literals of a program have another name for a
parameter, one that they do not mention otherwise, then the program runs as before, on whatever
machine in which all numbers stand for scopes: if the first run ends within its depth, so does the
second, with the same result if this contains no function, and with a function whose literal renames
parameters otherwise. All scopes are the same, but for renamed parameters in those of calls. -/
theorem Program.Renames.run_outcome {program other : Program} (h : program.Renames old new other)
    {verbosity : Int} {machine : Machine} {scope : ScopeId} {result : Option Value}
    (hclosed : machine.heap.Closed) (hs : scope < machine.heap.scopes.size)
    (hrun : (machine.run verbosity depth scope program).outcome = .ok result) :
    ∃ result' places, (machine.run verbosity depth scope other).outcome = .ok result' ∧
      List.replicate machine.heap.scopes.size .outside <+: places ∧
      Option.Rel (Value.Renamed old new places) result result' ∧
      (result.bind Value.captured? = none → result' = result) ∧
      (machine.run verbosity depth scope program).machine.heap.Renamed old new places
        (machine.run verbosity depth scope other).machine.heap := by
  have hscope : (List.replicate machine.heap.scopes.size Place.outside)[scope]? =
      some .outside := by
    rw [List.getElem?_replicate, if_pos hs]
  let C := Coupling.rename verbosity old new
  have hin : C.scope (List.replicate machine.heap.scopes.size .outside) Place.outside scope scope :=
    ⟨rfl, hscope⟩
  have hfollows := C.program_follows (d := depth) rfl hin h machine machine hclosed.renamed
  unfold Machine.run at hrun ⊢
  cases heval : (program.eval verbosity depth scope).run machine with
  | error =>
    rw [heval] at hrun
    cases hrun
  | ok value after =>
    rw [heval] at hrun
    cases hrun
    obtain ⟨places, result', last, hlast, hlater, hheap, hresult⟩ := hfollows _ _ heval
    have hlast' : (other.eval verbosity depth scope).run machine = .ok result' last := hlast
    rw [hlast']
    refine ⟨result', places, rfl, hlater, hresult, fun hplain => ?_, hheap⟩
    cases hresult with
    | none => rfl
    | some hv => rw [hv.eq hplain]

/-- An identity function whose parameter takes the name of a binding outside. -/
theorem Program.Renames.run_outcome_identity :
    let literal := Expr.fn default [⟨default, "x"⟩]
      (.mk default [.bare default (.ident ⟨default, "x"⟩)])
    let other : Program :=
      ⟨[.bare default (.call default (literal.rename "x" "y") [.int default 7])]⟩
    let machine := Machine.ofHeap ⟨#[⟨[("y", .int 5)], none⟩]⟩
    (machine.run 0 3 0 other).outcome = .ok (some (.int 7)) := by
  intro literal other machine
  have hclosed : machine.heap.Closed := Heap.closed_singleton fun id hid => nomatch hid
  have hrenames : Program.Renames "x" "y"
      ⟨[.bare default (.call default literal [.int default 7])]⟩ other := by
    have hold : "x" ∈ [(⟨default, "x"⟩ : Ident)].map Ident.name := List.mem_cons_self
    have hnew : "y" ∉ literal.names := by
      simp [literal, Expr.names, Block.names, Stmt.namesAll, Stmt.names]
    exact .cons (.bare (.call (.literal hold hnew) (.cons .int .nil))) .nil
  have hseven : (machine.run 0 3 0
      ⟨[.bare default (.call default literal [.int default 7])]⟩).outcome = .ok (some (.int 7)) :=
    rfl
  obtain ⟨result', places, hresult, -, -, hsame, -⟩ :=
    Program.Renames.run_outcome hrenames hclosed Nat.zero_lt_one hseven
  rw [hresult, hsame rfl]

end Inkwell
