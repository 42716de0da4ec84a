import Lineage.Proofs.Run.Filling
import Lineage.Proofs.Run.Steps

/-! Transforms that leave nodes out. A transform that does nothing but claim nodes, and decides about
each by its key, its pointer and its value, copies the pruned tree: hook for hook its run takes the way
of the walk, whatever is shared or contains itself, and nothing on the way is refused. -/

namespace Lineage

variable {σ τ : Type}

/-- The hooks leave the run alone, and a node is claimed as `claims` says. The transform may change its
own state and its surroundings. -/
structure NodeTransform.Selects (t : NodeTransform σ τ) (h : Heap)
    (claims : Segment → Pointer → Tree → Bool) : Prop where
  prepare : ∀ s, h.Grows s.workspace.heap →
    ∃ s', t.prepare s = .ok () s' ∧ s'.runState = s.runState
  claim : ∀ s target visit n, h.Grows s.workspace.heap → h.Has n.value →
    ∃ s', t.claim target visit n s = .ok (claims n.key n.pointer n.value) s' ∧
      s'.runState = s.runState
  conclude : ∀ s, h.Grows s.workspace.heap →
    ∃ s', t.conclude s = .ok () s' ∧ s'.runState = s.runState

theorem NodeTransform.identity_selects (h : Heap) :
    (identity : NodeTransform σ τ).Selects h fun _ _ _ => false :=
  ⟨fun s _ => ⟨s, rfl, rfl⟩, fun s _ _ _ _ _ => ⟨s, rfl, rfl⟩, fun s _ => ⟨s, rfl, rfl⟩⟩

namespace NodeTransform

variable {t : NodeTransform σ τ} {visit : TraversalId} {depth : Nat} {target child : Proxy} {n : Node}
  {s s' : HookState σ τ} {r : RunState}

/-- What is done with the members of a node whose copy is `child`. -/
def handleMembers (t : NodeTransform σ τ) (visit : TraversalId) (depth : Nat) (child : Proxy)
    (n : Node) : Hook σ τ Unit :=
  match depth with
  | 0 => pure ()
  | depth + 1 => Hook.forMembers visit n fun m => t.handle visit depth child m

theorem handle_eq (t : NodeTransform σ τ) (visit : TraversalId) (depth : Nat) (target : Proxy)
    (n : Node) : t.handle visit depth target n = (do
      if ← t.claim target visit n then return
      let h ← Hook.heap
      let key := copyKey h target n
      if !n.value.isComposite then Run.place target key n.pointer n.value false
      else
        let c := if h.isArray n.value then Container.emptyArray else Container.emptyObject
        let child ← Run.allocate c target key n.pointer
        t.handleMembers visit depth child n) := by
  cases depth <;> rfl

theorem handle_of_claimed (hclaim : t.claim target visit n s = .ok true s') :
    t.handle visit depth target n s = .ok () s' := by
  rw [handle_eq, bind_of_ok hclaim]
  rfl

theorem handle_of_scalar (hclaim : t.claim target visit n s = .ok false s')
    (hvalue : n.value.id? = none)
    (hplace : Run.place target (copyKey s'.workspace.heap target n) n.pointer n.value false
      s'.runState = .ok () r) :
    t.handle visit depth target n s = .ok () (s'.withRun r) := by
  have hscalar : n.value.isComposite = false := by simp [Tree.isComposite, hvalue]
  rw [handle_eq, bind_of_ok hclaim]
  simp only [hscalar]
  exact Hook.liftRun_of_ok hplace

theorem handle_of_container {id : ContainerId} (hclaim : t.claim target visit n s = .ok false s')
    (hvalue : n.value = .container id)
    (hallocate : Run.allocate (Container.emptyOf (s'.workspace.heap.isArray n.value)) target
      (copyKey s'.workspace.heap target n) n.pointer s'.runState = .ok child r) :
    t.handle visit depth target n s = t.handleMembers visit depth child n (s'.withRun r) := by
  have hcomposite : n.value.isComposite = true := by simp [Tree.isComposite, hvalue, Tree.id?]
  rw [handle_eq, bind_of_ok hclaim]
  simp only [hcomposite]
  exact bind_of_ok (Hook.liftRun_of_ok hallocate)

/-- Where the write of a node is refused, so is the node. -/
theorem handle_of_scalar_error {e : RunError} (hclaim : t.claim target visit n s = .ok false s')
    (hvalue : n.value.id? = none)
    (hplace : Run.place target (copyKey s'.workspace.heap target n) n.pointer n.value false
      s'.runState = .error e r) :
    t.handle visit depth target n s = .error e (s'.withRun r) := by
  have hscalar : n.value.isComposite = false := by simp [Tree.isComposite, hvalue]
  rw [handle_eq, bind_of_ok hclaim]
  simp only [hscalar]
  exact Hook.liftRun_of_error hplace

theorem handle_of_container_error {id : ContainerId} {e : RunError}
    (hclaim : t.claim target visit n s = .ok false s') (hvalue : n.value = .container id)
    (hallocate : Run.allocate (Container.emptyOf (s'.workspace.heap.isArray n.value)) target
      (copyKey s'.workspace.heap target n) n.pointer s'.runState = .error e r) :
    t.handle visit depth target n s = .error e (s'.withRun r) := by
  have hcomposite : n.value.isComposite = true := by simp [Tree.isComposite, hvalue, Tree.id?]
  have hheap : (Hook.heap : Hook σ τ Heap) s' = .ok s'.workspace.heap s' := rfl
  rw [handle_eq, bind_of_ok hclaim]
  simp only [hcomposite]
  exact (bind_of_ok hheap).trans (bind_of_error (Hook.liftRun_of_error hallocate))

theorem handleMembers_of_withheld (hn : n.exposed = false) :
    t.handleMembers visit depth child n s = .ok () s := by
  unfold handleMembers
  cases depth with
  | zero => rfl
  | succ depth =>
    simp only [Hook.forMembers, Heap.children, hn]
    rfl

theorem handleMembers_of_exposed (hn : n.exposed = true) :
    t.handleMembers visit (depth + 1) child n s =
      Hook.forEntries visit n.pointer (t.handle visit depth child)
        (s.workspace.heap.entries n.value) s := by
  have hchildren : s.workspace.heap.children n =
      { base := n.pointer, rest := s.workspace.heap.entries n.value } := if_pos hn
  have hmembers : t.handleMembers visit (depth + 1) child n s =
      Hook.forNodes visit (s.workspace.heap.children n) (t.handle visit depth child) s := rfl
  rw [hmembers, hchildren]
  rfl

variable {h : Heap} {claims : Segment → Pointer → Tree → Bool} {source : SourceId} {spot : Spot}
  {pass pass₁ pass' : Pass} {c : Container} {e e₁ : Entrances} {x : Segment × Tree}
  {entries rest : List (Segment × Tree)} {out after : Pruned} {s₁ s₂ : HookState σ τ}

/-- From `s` the hooks copy `out` from the entries into the container `c` behind the target, and then
the traversal has come as far as `pass'`. -/
def Copies (t : NodeTransform σ τ) (source : SourceId) (visit : TraversalId) (depth : Nat)
    (target : Proxy) (c : Container) (base : Pointer) (e : Entrances)
    (entries : List (Segment × Tree)) (out : Pruned) (pass' : Pass) (s : HookState σ τ) : Prop :=
  ∃ s' e', Hook.forEntries visit base (t.handle visit depth target) entries s = .ok () s' ∧
    Filled source target c out s s' ∧ s'.workspace.traversals[visit]? = some e' ∧
    e'.Tracks pass'.yielded ∧ e.Within e' base entries

/-- An entry is yielded and handled: `out` is copied, and the run may go on from `spot'`. -/
structure Handles (t : NodeTransform σ τ) (h : Heap) (source : SourceId) (visit : TraversalId)
    (depth : Nat) (target : Proxy) (spot : Spot) (c : Container) (e : Entrances)
    (x : Segment × Tree) (out : Pruned) (spot' : Spot) (pass' : Pass) (e₁ : Entrances)
    (s s₁ : HookState σ τ) : Prop where
  ok : t.handle visit depth target (e.yield spot.source x).1
    (s.entering visit (e.yield spot.source x).2) = .ok () s₁
  filled : Filled source target c out (s.entering visit (e.yield spot.source x).2) s₁
  filling : Filling h source visit target spot' pass' (c.extend out.members) e₁ s₁
  within : e.Within e₁ spot.source [x]

/-- One entry is handled, and then the others. -/
theorem Handles.copies {spot' : Spot} {pass₁ : Pass}
    (hh : t.Handles h source visit depth target spot c e x out spot' pass₁ e₁ s s₁)
    (hs : Filling h source visit target spot pass c e s)
    (hrest : t.Copies source visit depth target (c.extend out.members) spot.source e₁ rest after
      pass' s₁) :
    t.Copies source visit depth target c spot.source e (x :: rest) (out.append after) pass' s := by
  obtain ⟨s', e', hok, hafter, he', ht', hwithin'⟩ := hrest
  have hbeside : Filled source target c out s s₁ :=
    ⟨hh.filled.heap, hh.filled.table, hh.filled.run, hh.filled.registry⟩
  refine ⟨s', e', ?_, hbeside.trans hafter hs.lt_size, he', ht', hh.within.trans hwithin'⟩
  rw [Hook.forEntries_cons hs.entered, bind_of_ok hh.ok, hok]

/-- When an entry is yielded, the transform is asked about it. -/
theorem Selects.asked (ht : t.Selects h claims)
    (hs : Filling h source visit target spot pass c e s) (hclear : e.Clear spot.source (x :: rest))
    (hhas : h.Has x.2) :
    ∃ s₁, t.claim target visit (e.yield spot.source x).1
        (s.entering visit (e.yield spot.source x).2) =
          .ok (claims x.1 (spot.source.append x.1) x.2) s₁ ∧
      s₁.runState = (s.entering visit (e.yield spot.source x).2).runState ∧
      Filling h source visit target spot { pass with yielded := x.2.id?.toList ++ pass.yielded } c
        (e.yield spot.source x).2 s₁ := by
  have hs₁ := hs.entering (Entrances.tracks_yield hs.tracks hclear).1
  have hvalue := e.value_yield spot.source x
  obtain ⟨s₁, hclaim, hsame⟩ :=
    ht.claim _ target visit (e.yield spot.source x).1 hs₁.grows (hvalue ▸ hhas)
  rw [e.key_yield, e.pointer_yield, hvalue] at hclaim
  exact ⟨s₁, hclaim, hsame, hs₁.congr hsame⟩

/-- Nothing is copied where an entry is claimed. -/
theorem Selects.handles_claimed (ht : t.Selects h claims) (depth : Nat)
    (hs : Filling h source visit target spot pass c e s) (hclear : e.Clear spot.source (x :: rest))
    (hhas : h.Has x.2) (hclaim : claims x.1 (spot.source.append x.1) x.2 = true) :
    ∃ s₁, t.Handles h source visit depth target spot c e x {} spot
      { pass with yielded := x.2.id?.toList ++ pass.yielded } (e.yield spot.source x).2 s s₁ := by
  obtain ⟨s₁, hask, hsame, hs₁⟩ := ht.asked hs hclear hhas
  rw [hclaim] at hask
  refine ⟨s₁, handle_of_claimed hask, .of_runState hsame hs.content, ?_,
    (Entrances.tracks_yield hs.tracks hclear).2⟩
  rw [Container.extend_nil]
  exact hs₁

/-- A scalar is copied as it is. -/
theorem Selects.handles_scalar (ht : t.Selects h claims) (depth : Nat)
    (hs : Filling h source visit target spot pass c e s) {key : Segment} {value : Tree}
    (hclear : e.Clear spot.source ((key, value) :: rest)) (hhas : h.Has value)
    (hclaim : claims key (spot.source.append key) value = false) (hvalue : value.id? = none)
    (hroom : c.Room spot.number ((key, value) :: rest)) :
    ∃ s₁, t.Handles h source visit depth target spot c e (key, value)
      ⟨[(spot.key key, value)], [spot.node key value value], []⟩ spot.next pass e s s₁ := by
  have hyield : e.yield spot.source (key, value) =
      (⟨key, value, spot.source.append key, false⟩, e) := Entrances.yield_scalar e spot.source hvalue
  obtain ⟨s₁, hask, hsame, hs₁⟩ := ht.asked hs hclear hhas
  rw [hclaim] at hask
  rw [hyield] at hask hsame hs₁
  obtain ⟨r, hplace, hf, htraversals⟩ := hs₁.place hroom
  have hentered : (s₁.withRun r).workspace.traversals[visit]? = some e := htraversals ▸ hs₁.entered
  have hkey := hs₁.copyKey_eq hroom ⟨key, value, spot.source.append key, false⟩
  refine ⟨s₁.withRun r, ?_, ?_, hs₁.filled hf rfl rfl hentered hs.tracks, .refl _ _ _⟩
  · rw [hyield]
    exact handle_of_scalar hask hvalue (by rw [hkey]; exact hplace)
  · rw [hyield]
    exact hf.congr hsame

/-- Where a container is yielded once more, its copy is empty. -/
theorem Selects.handles_again (ht : t.Selects h claims) (depth : Nat)
    (hs : Filling h source visit target spot pass c e s) {key : Segment} {id : ContainerId}
    (hclear : e.Clear spot.source ((key, .container id) :: rest)) (hhas : h.Has (.container id))
    (hclaim : claims key (spot.source.append key) (.container id) = false) (hid : id ∈ pass.yielded)
    (hroom : c.Room spot.number ((key, .container id) :: rest)) :
    ∃ s₁, t.Handles h source visit depth target spot c e (key, .container id)
      ⟨[(spot.key key, .container pass.fresh)],
        [spot.node key (.container id) (.container pass.fresh)],
        [.emptyOf (h.isArray (.container id))]⟩
      spot.next { pass with fresh := pass.fresh + 1 } e s s₁ := by
  have hyield := Entrances.yield_again hs.tracks hid hclear
  obtain ⟨s₁, hask, hsame, hs₁⟩ := ht.asked hs hclear hhas
  rw [hclaim] at hask
  rw [hyield] at hask hsame hs₁
  obtain ⟨r, hallocate, hf, htraversals, _⟩ := hs₁.allocate hroom (h.isArray (.container id))
  have hentered : (s₁.withRun r).workspace.traversals[visit]? = some e := htraversals ▸ hs₁.entered
  have hkey := hs₁.copyKey_eq hroom ⟨key, .container id, spot.source.append key, false⟩
  have hkind := hs₁.grows.isArray_eq hhas
  refine ⟨s₁.withRun r, ?_, ?_, hs₁.filled hf rfl rfl hentered hs.tracks, .refl _ _ _⟩
  · rw [hyield, handle_of_container hask rfl (by rw [hkey, hkind]; exact hallocate)]
    exact handleMembers_of_withheld rfl
  · rw [hyield]
    exact hf.congr hsame

/-- Where a container is yielded first, its members are copied into its copy. -/
theorem Selects.handles_first (ht : t.Selects h claims) (depth : Nat)
    (hs : Filling h source visit target spot pass c e s) {key : Segment} {id : ContainerId}
    (hclear : e.Clear spot.source ((key, .container id) :: rest)) (hhas : h.Has (.container id))
    (hclaim : claims key (spot.source.append key) (.container id) = false) (hid : id ∉ pass.yielded)
    (hroom : c.Room spot.number ((key, .container id) :: rest)) {below : Pruned} {pass₁ : Pass}
    (hfresh : pass₁.fresh = pass.fresh + 1 + below.containers.length)
    (hbelow : ∀ {target : Proxy} {e : Entrances} {s : HookState σ τ},
      Filling h source visit target (spot.inside key (h.isArray (.container id)))
        ⟨id :: pass.yielded, pass.fresh + 1⟩ (.emptyOf (h.isArray (.container id))) e s →
      e.Clear (spot.source.append key) (h.entries (.container id)) →
      t.Copies source visit depth target (.emptyOf (h.isArray (.container id)))
        (spot.source.append key) e (h.entries (.container id)) below pass₁ s) :
    ∃ s₁ e₁, t.Handles h source visit (depth + 1) target spot c e (key, .container id)
      ⟨[(spot.key key, .container pass.fresh)],
        spot.node key (.container id) (.container pass.fresh) :: below.nodes,
        (Container.emptyOf (h.isArray (.container id))).extend below.members :: below.containers⟩
      spot.next pass₁ e₁ s s₁ := by
  have hyield := Entrances.yield_first hs.tracks spot.source key hid
  have hwithin := (Entrances.tracks_yield hs.tracks hclear).2
  obtain ⟨s₁, hask, hsame, hs₁⟩ := ht.asked hs hclear hhas
  rw [hclaim] at hask
  rw [hyield] at hask hsame hs₁ hwithin
  obtain ⟨r, hallocate, hf, htraversals, hregistry⟩ :=
    hs₁.allocate hroom (h.isArray (.container id))
  have hinside := hs₁.inside hf htraversals hregistry
  obtain ⟨s₂, e₂, hok, hf₂, he₂, ht₂, hwithin₂⟩ := hbelow hinside (hclear.below id _)
  have hnested := hf.nested hf₂ hs₁.size.symm
  have hcount : pass₁.fresh = pass.fresh + (below.containers.length + 1) := by
    rw [hfresh, Nat.add_assoc, Nat.add_comm 1]
  have hkey := hs₁.copyKey_eq hroom ⟨key, .container id, spot.source.append key, true⟩
  have hkind := hs₁.grows.isArray_eq hhas
  refine ⟨s₂, e₂, ?_, ?_, hs₁.filled hnested rfl hcount he₂ ht₂, hwithin.below hwithin₂⟩
  · rw [hyield, handle_of_container hask rfl (by rw [hkey, hkind]; exact hallocate),
      handleMembers_of_exposed rfl, hinside.grows.entries_eq hhas]
    exact hok
  · rw [hyield]
    exact hnested.congr hsame

/-- The run takes the way of the walk. -/
theorem Selects.copies (ht : t.Selects h claims) (hi : h.Indexable) (hc : h.Closed)
    (hp : h.Prunes claims spot pass entries out pass') (hdepth : h.unyielded pass.yielded ≤ depth)
    (hentries : ∀ x ∈ entries, h.Has x.2) (hn : (entries.map (·.1.token)).Nodup)
    (hroom : c.Room spot.number entries) (hs : Filling h source visit target spot pass c e s)
    (hclear : e.Clear spot.source entries) :
    t.Copies source visit depth target c spot.source e entries out pass' s := by
  induction hp generalizing depth target c e s with
  | nil => exact ⟨s, e, rfl, .of_runState rfl hs.content, hs.entered, hs.tracks, .refl _ _ _⟩
  | @claimed spot pass _ key value rest after hclaim hrest ih =>
    have hn' := (List.nodup_cons.mp hn).2
    have hentries' := fun x hx => hentries x (List.mem_cons_of_mem _ hx)
    have hfewer : h.unyielded (value.id?.toList ++ pass.yielded) ≤ h.unyielded pass.yielded :=
      Heap.unyielded_mono (List.subset_append_right _ _)
    obtain ⟨s₁, hh⟩ := ht.handles_claimed depth hs hclear (hentries _ List.mem_cons_self) hclaim
    have hroom' := hroom.skip
    rw [← c.extend_nil] at hroom'
    have hclear' := hclear.after hh.within hn
    exact hh.copies hs (ih (Nat.le_trans hfewer hdepth) hentries' hn' hroom' hh.filling hclear')
  | scalar hclaim hvalue hrest ih =>
    have hn' := (List.nodup_cons.mp hn).2
    have hentries' := fun x hx => hentries x (List.mem_cons_of_mem _ hx)
    obtain ⟨s₁, hh⟩ :=
      ht.handles_scalar depth hs hclear (hentries _ List.mem_cons_self) hclaim hvalue hroom
    have hclear' := hclear.after hh.within hn
    exact hh.copies hs (ih hdepth hentries' hn' (hroom.next hn _) hh.filling hclear')
  | again hclaim hid hrest ih =>
    have hn' := (List.nodup_cons.mp hn).2
    have hentries' := fun x hx => hentries x (List.mem_cons_of_mem _ hx)
    obtain ⟨s₁, hh⟩ := ht.handles_again depth hs hclear (hentries _ List.mem_cons_self) hclaim hid hroom
    have hclear' := hclear.after hh.within hn
    rw [Pruned.container_nil]
    exact hh.copies hs (ih hdepth hentries' hn' (hroom.next hn _) hh.filling hclear')
  | first hclaim hid hbelow hrest ihbelow ihrest =>
    have hn' := (List.nodup_cons.mp hn).2
    have hentries' := fun x hx => hentries x (List.mem_cons_of_mem _ hx)
    have hhas := hentries _ List.mem_cons_self
    have hfewer := Nat.lt_of_lt_of_le (Heap.unyielded_cons_lt (hhas _ rfl) hid) hdepth
    have hdepth' := Nat.le_trans (Heap.unyielded_mono hbelow.yielded_subset) hfewer.le
    -- something is left to be yielded, so the depth is not used up
    obtain ⟨depth, rfl⟩ : ∃ d, depth = d + 1 := Nat.exists_eq_succ_of_ne_zero (by omega)
    obtain ⟨s₁, e₁, hh⟩ := ht.handles_first depth hs hclear hhas hclaim hid hroom hbelow.fresh_eq
      (ihbelow (Nat.le_of_lt_succ hfewer) (hc.entries _) (h.nodup_tokens_entries _)
        (h.room_entries hi _))
    have hclear' := hclear.after hh.within hn
    exact hh.copies hs (ihrest hdepth' hentries' hn' (hroom.next hn _) hh.filling hclear')

end NodeTransform

end Lineage
