import Inkwell.Proofs.Evaluation.Layout

/-!
# What a host can bring about

A host creates environments and encloses existing ones, binds values and looks names up, runs
programs and calls functions. Whatever it does in whatever order, the heap stays well-formed: the
way outwards from every scope ends, and a name has the value that the nearest scope binds to it.
-/

namespace Inkwell

open EvalM

/-- The heaps that a host can bring about, and the values that it has then at hand: values that it
made itself, values that it looked up, and what programs and calls gave. -/
inductive Heap.Reached : Heap → List Value → Prop
  | empty : Reached ∅ []
  | fresh {heap : Heap} {held : List Value} : Reached heap held → Reached heap.fresh.2 held
  | enclosed {heap : Heap} {held : List Value} {outer : ScopeId} : Reached heap held →
    outer < heap.scopes.size → Reached (heap.enclosed outer).2 held
  /-- A value made by hand. It can only be a function in a scope that there is. -/
  | made {heap : Heap} {held : List Value} {v : Value} : Reached heap held →
    (∀ id ∈ v.captured?, id < heap.scopes.size) → Reached heap (v :: held)
  | found {heap : Heap} {held : List Value} {scope : ScopeId} {name : String} {depth : Nat}
    {v : Value} : Reached heap held → scope < heap.scopes.size →
    heap.get? name depth scope = .ok (some v) → Reached heap (v :: held)
  | set {heap : Heap} {held : List Value} {scope : ScopeId} {name : String} {v : Value} :
    Reached heap held → scope < heap.scopes.size → v ∈ held → Reached (heap.set scope name v) held
  /-- A run of a program, however it ends. -/
  | run {machine : Machine} {held values : List Value} {scope : ScopeId} {program : Program}
    {verbosity : Int} {depth : Nat} : Reached machine.heap held →
    scope < machine.heap.scopes.size →
    (∀ v ∈ values, (machine.run verbosity depth scope program).outcome = .ok (some v)) →
    Reached (machine.run verbosity depth scope program).machine.heap (values ++ held)
  /-- A call, however it ends. -/
  | call {machine : Machine} {held values arguments : List Value} {callee : Value}
    {verbosity : Int} {depth : Nat} : Reached machine.heap held → callee ∈ held →
    (∀ a ∈ arguments, a ∈ held) →
    (∀ v ∈ values, ∃ after,
      (callee.call verbosity depth (Expr.eval verbosity depth) arguments).run machine =
        .ok v after) →
    Reached ((callee.call verbosity depth (Expr.eval verbosity depth) arguments).leaves
      machine).heap (values ++ held)

/-- The layout that asks for nothing: any tree may be evaluated anywhere. -/
def Layout.any : Layout where
  literal _ := True
  place _ _ := True
  function _ _ _ := True
  closure _ _ := trivial
  call _ := ⟨0, trivial, fun _ _ => trivial⟩

variable {heap : Heap} {held : List Value}

/-- A value made by hand fits in where all scopes are accounted for. -/
theorem Heap.Laid.made {lengths : Lengths} (h : heap.Laid .any 0 lengths) : ∀ {v : Value},
    (∀ id ∈ v.captured?, id < heap.scopes.size) → v.Laid .any lengths
  | .int _, _ => trivial
  | .bool _, _ => trivial
  | .null, _ => trivial
  | .error _, _ => trivial
  | .returned v, hv => made h (v := v) hv
  | .fn _ _ scope, hv => by
    obtain ⟨n, hn⟩ := h.all (Nat.zero_le scope) (hv scope rfl)
    exact ⟨n, hn, trivial⟩

/-- Whatever a host does keeps an account of all scopes. -/
theorem Heap.Reached.laid (h : heap.Reached held) :
    ∃ lengths, heap.Laid .any 0 lengths ∧ ∀ v ∈ held, v.Laid .any lengths := by
  induction h with
  | empty => exact ⟨_, .start ∅, nofun⟩
  | fresh _ ih =>
    obtain ⟨lengths, hheap, hheld⟩ := ih
    have hlater := hheap.later_update 1
    have hany : Layout.any.place 0 1 := trivial
    exact ⟨_, hheap.fresh hany, fun v hv => (hheld v hv).later hlater⟩
  | enclosed _ houter ih =>
    obtain ⟨lengths, hheap, hheld⟩ := ih
    obtain ⟨n, hn⟩ := hheap.all (Nat.zero_le _) houter
    have hlater := hheap.later_update (n + 1)
    have hany : Layout.any.place 0 (n + 1) := trivial
    exact ⟨_, hheap.enclosed hn hany, fun v hv => (hheld v hv).later hlater⟩
  | made _ hv ih =>
    obtain ⟨lengths, hheap, hheld⟩ := ih
    refine ⟨lengths, hheap, ?_⟩
    rw [List.forall_mem_cons]
    exact ⟨hheap.made hv, hheld⟩
  | found _ hscope hget ih =>
    obtain ⟨lengths, hheap, hheld⟩ := ih
    obtain ⟨n, hn⟩ := hheap.all (Nat.zero_le _) hscope
    refine ⟨lengths, hheap, ?_⟩
    rw [List.forall_mem_cons]
    exact ⟨hheap.get? hn hget, hheld⟩
  | set _ _ hv ih =>
    obtain ⟨lengths, hheap, hheld⟩ := ih
    exact ⟨lengths, hheap.set (hheld _ hv), hheld⟩
  | @run machine held values scope program verbosity depth _ hscope hvalues ih =>
    obtain ⟨lengths, hheap, hheld⟩ := ih
    obtain ⟨n, hn⟩ := hheap.all (Nat.zero_le _) hscope
    obtain ⟨more, hmore, hafter, hvalue⟩ :=
      hheap.run hn trivial verbosity depth program fun _ _ => trivial
    refine ⟨more, hafter, ?_⟩
    rw [List.forall_mem_append]
    exact ⟨fun v hv => hvalue v (hvalues v hv), fun v hv => (hheld v hv).later hmore⟩
  | @call machine held values arguments callee verbosity depth _ hcallee harguments hvalues ih =>
    obtain ⟨lengths, hheap, hheld⟩ := ih
    have hplaced : ∀ a ∈ arguments, a.Laid .any lengths := fun a ha => hheld a (harguments a ha)
    obtain ⟨more, hmore, hafter, hvalue⟩ :=
      hheap.call (hheld callee hcallee) hplaced verbosity depth
    refine ⟨more, hafter, ?_⟩
    rw [List.forall_mem_append]
    refine ⟨fun v hv => ?_, fun v hv => (hheld v hv).later hmore⟩
    obtain ⟨after, hrun⟩ := hvalues v hv
    exact hvalue v after hrun

/-- Whatever a host does, the heap is well-formed and the functions at hand were created in scopes
that there are. Every scope has one chain, on which the numbers only fall. Looking a name up from
there ends within as much depth as the chain is long, with the value that the first scope on the
chain binds to it, if one does, and any lookup that ends gives this; the value that a scope binds to
a name is the one that was set there last. -/
theorem Heap.Reached.nearest (h : heap.Reached held) :
    heap.WellFormed ∧ (∀ v ∈ held, ∀ id ∈ v.captured?, id < heap.scopes.size) ∧
    (∀ scope < heap.scopes.size, ∃ chain, heap.Chain scope chain ∧
      (∀ other, heap.Chain scope other → other = chain) ∧ chain.Pairwise (· > ·) ∧ ∀ name,
        (∀ depth, chain.length ≤ depth → heap.get? name depth scope =
          .ok (chain.findSome? fun id => (heap.bindings id).get? name)) ∧
        ∀ depth found, heap.get? name depth scope = .ok found →
          found = chain.findSome? fun id => (heap.bindings id).get? name) ∧
    (∀ id name v, (heap.bindings id).get? name = some v ↔ (name, v) ∈ heap.bindings id) ∧
    ∀ scope < heap.scopes.size, ∀ name v target key,
      ((heap.set scope name v).bindings target).get? key =
        if target = scope ∧ name = key then some v else (heap.bindings target).get? key := by
  obtain ⟨lengths, hheap, hheld⟩ := h.laid
  have hformed : heap.WellFormed := hheap.wellFormed
  refine ⟨hformed, fun v hv id hid => ?_, fun scope hscope => ?_, hformed.get?_bindings_iff,
    fun scope hscope name v target key => Heap.get?_bindings_set hscope target key⟩
  · obtain ⟨n, hn⟩ := (hheld v hv).captured hid
    exact hheap.exist hn
  · obtain ⟨chain, hchain, hfalls, -⟩ := hformed.exists_chain hscope
    refine ⟨chain, hchain, fun other hother => hchain.unique hother, hfalls,
      fun name => ⟨fun depth hdepth => ?_, fun depth found hget => ?_⟩⟩
    · obtain ⟨found, hget⟩ := hchain.exists_get? hdepth name
      rw [hget, hchain.get?_found hget]
    · exact hchain.get?_found hget

/-- A function that a program binds and gives, in a scope inside another one. -/
theorem Heap.Reached.nearest_function :
    let f : Ident := ⟨⟨.ident, "f"⟩, "f"⟩
    let x : Ident := ⟨⟨.ident, "x"⟩, "x"⟩
    let body : Block := .mk ⟨.lbrace, "\x7b"⟩ [.bare ⟨.ident, "x"⟩ (.ident x)]
    let program : Program := ⟨[.define ⟨.letKw, "let"⟩ f (.fn ⟨.fnKw, "fn"⟩ [x] body),
      .bare ⟨.ident, "f"⟩ (.ident f)]⟩
    let run := (Machine.ofHeap ((∅ : Heap).fresh.2.enclosed 0).2).run 0 9 1 program
    let heap := run.machine.heap
    heap.WellFormed ∧ 1 < heap.scopes.size ∧ ∃ chain, heap.Chain 1 chain ∧
      (chain.findSome? fun id => (heap.bindings id).get? "f") = some (.fn ["x"] body 1) := by
  intro f x body program run heap
  have hstart : Heap.Reached ((∅ : Heap).fresh.2.enclosed 0).2 [] :=
    .enclosed (.fresh .empty) (by decide)
  have hvalues : ∀ v ∈ [Value.fn ["x"] body 1], run.outcome = .ok (some v) := by
    intro v hv
    rw [List.mem_singleton.mp hv]
    rfl
  have hreached : heap.Reached ([Value.fn ["x"] body 1] ++ []) := .run hstart (by decide) hvalues
  obtain ⟨hformed, hheld, hchains, -⟩ := hreached.nearest
  have hinside : 1 < heap.scopes.size := hheld _ List.mem_cons_self 1 rfl
  obtain ⟨chain, hchain, -, -, hget⟩ := hchains 1 hinside
  have hfound : heap.get? "f" 9 1 = .ok (some (.fn ["x"] body 1)) := rfl
  exact ⟨hformed, hinside, chain, hchain, ((hget "f").2 9 _ hfound).symm⟩

end Inkwell
