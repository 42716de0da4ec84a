import Lineage.Proofs.Traversal.Positions
import Lineage.Proofs.Tree.Additions
import Mathlib.Data.Finset.Card

/-! Pruned copies. A depth-first walk over a tree leaves out what is claimed, with everything below it,
and copies the rest in order: scalars as they are, and containers into new ones. A container is walked
where it is yielded first, whether it is claimed there or not; a copy of it anywhere else is empty. The
walk is given as a relation, rule by rule. On every heap that names only containers that exist there is
exactly one result, and the places that are copied are those of the source and of the copy. -/

namespace Lineage

/-- Where a walk stands: the pointers of a container and of its copy, and in an array the number of
items copied so far. -/
structure Spot where
  source : Pointer
  copy : Pointer
  number : Option Nat

/-- How far a walk has come: the containers that it has yielded, and the identity that the next new
container gets. -/
structure Pass where
  yielded : List ContainerId
  fresh : ContainerId

/-- A node of a copy and the node that it was copied from. -/
structure CopiedNode where
  generated : Pointer
  copy : Tree
  origin : Pointer
  value : Tree

/-- What a walk makes: the members of the copy of the container that it walks, and in walk order the
nodes that it copies and the containers of these. -/
structure Pruned where
  members : List (Segment × Tree) := []
  nodes : List CopiedNode := []
  containers : List Container := []

namespace Spot

/-- The key of the next copy. Items are numbered without gaps. -/
def key (s : Spot) (key : Segment) : Segment := Container.keyFor s.number key

/-- The spot after a copy was made. -/
def next (s : Spot) : Spot := { s with number := s.number.map (· + 1) }

/-- The spot inside a member that is copied. -/
def inside (s : Spot) (key : Segment) (isArray : Bool) : Spot :=
  ⟨s.source.append key, s.copy.append (s.key key), if isArray then some 0 else none⟩

def node (s : Spot) (key : Segment) (value copy : Tree) : CopiedNode :=
  ⟨s.copy.append (s.key key), copy, s.source.append key, value⟩

end Spot

namespace Pruned

/-- A scalar comes before what is copied after it. -/
def scalar (spot : Spot) (key : Segment) (value : Tree) (after : Pruned) : Pruned where
  members := (spot.key key, value) :: after.members
  nodes := spot.node key value value :: after.nodes
  containers := after.containers

/-- A container comes before what is copied below it, and that before what is copied after it. -/
def container (spot : Spot) (key : Segment) (id fresh : ContainerId) (isArray : Bool)
    (below after : Pruned) : Pruned where
  members := (spot.key key, .container fresh) :: after.members
  nodes := spot.node key (.container id) (.container fresh) :: (below.nodes ++ after.nodes)
  containers :=
    (Container.emptyOf isArray).extend below.members :: (below.containers ++ after.containers)

end Pruned

namespace Heap

/-- The walk over entries of a container. Claims are decided by key, pointer and value. -/
inductive Prunes (h : Heap) (claims : Segment → Pointer → Tree → Bool) :
    Spot → Pass → List (Segment × Tree) → Pruned → Pass → Prop
  | nil {spot : Spot} {pass : Pass} : Prunes h claims spot pass [] {} pass
  | claimed {spot : Spot} {pass pass' : Pass} {key : Segment} {value : Tree}
      {rest : List (Segment × Tree)} {after : Pruned}
      (hclaim : claims key (spot.source.append key) value = true)
      (hrest : Prunes h claims spot { pass with yielded := value.id?.toList ++ pass.yielded } rest
        after pass') :
      Prunes h claims spot pass ((key, value) :: rest) after pass'
  | scalar {spot : Spot} {pass pass' : Pass} {key : Segment} {value : Tree}
      {rest : List (Segment × Tree)} {after : Pruned}
      (hclaim : claims key (spot.source.append key) value = false) (hvalue : value.id? = none)
      (hrest : Prunes h claims spot.next pass rest after pass') :
      Prunes h claims spot pass ((key, value) :: rest) (.scalar spot key value after) pass'
  | again {spot : Spot} {pass pass' : Pass} {key : Segment} {id : ContainerId}
      {rest : List (Segment × Tree)} {after : Pruned}
      (hclaim : claims key (spot.source.append key) (.container id) = false)
      (hid : id ∈ pass.yielded)
      (hrest : Prunes h claims spot.next { pass with fresh := pass.fresh + 1 } rest after pass') :
      Prunes h claims spot pass ((key, .container id) :: rest)
        (.container spot key id pass.fresh (h.isArray (.container id)) {} after) pass'
  | first {spot : Spot} {pass pass₁ pass' : Pass} {key : Segment} {id : ContainerId}
      {rest : List (Segment × Tree)} {below after : Pruned}
      (hclaim : claims key (spot.source.append key) (.container id) = false)
      (hid : id ∉ pass.yielded)
      (hbelow : Prunes h claims (spot.inside key (h.isArray (.container id)))
        ⟨id :: pass.yielded, pass.fresh + 1⟩ (h.entries (.container id)) below pass₁)
      (hrest : Prunes h claims spot.next pass₁ rest after pass') :
      Prunes h claims spot pass ((key, .container id) :: rest)
        (.container spot key id pass.fresh (h.isArray (.container id)) below after) pass'

/-- The number of containers that have not been yielded. -/
def unyielded (h : Heap) (ids : List ContainerId) : Nat :=
  (Finset.range h.size \ ids.toFinset).card

variable {h : Heap} {claims : Segment → Pointer → Tree → Bool} {spot : Spot} {pass pass' : Pass}
  {entries : List (Segment × Tree)} {out : Pruned}

theorem unyielded_mono {ids ids' : List ContainerId} (hsub : ids ⊆ ids') :
    h.unyielded ids' ≤ h.unyielded ids := by
  apply Finset.card_le_card
  intro id hid
  simp only [Finset.mem_sdiff, List.mem_toFinset] at hid ⊢
  exact ⟨hid.1, fun hmem => hid.2 (hsub hmem)⟩

theorem unyielded_cons_lt {id : ContainerId} {ids : List ContainerId} (hlt : id < h.size)
    (hid : id ∉ ids) : h.unyielded (id :: ids) < h.unyielded ids := by
  apply Finset.card_lt_card
  refine Finset.ssubset_iff_of_subset ?_ |>.mpr ⟨id, ?_, ?_⟩
  · intro i hi
    simp only [Finset.mem_sdiff, List.mem_toFinset, List.mem_cons, not_or] at hi ⊢
    exact ⟨hi.1, hi.2.2⟩
  · simp [hlt, hid]
  · simp

theorem unyielded_le (h : Heap) (ids : List ContainerId) : h.unyielded ids ≤ h.size := by
  have hle := Finset.card_le_card (Finset.sdiff_subset (s := Finset.range h.size) (t := ids.toFinset))
  rwa [Finset.card_range] at hle

/-- What was yielded stays yielded. -/
theorem Prunes.yielded_subset (hp : h.Prunes claims spot pass entries out pass') :
    pass.yielded ⊆ pass'.yielded := by
  induction hp with
  | nil => exact List.Subset.refl _
  | claimed _ _ ih => exact List.Subset.trans (List.subset_append_right _ _) ih
  | scalar _ _ _ ih => exact ih
  | again _ _ _ ih => exact ih
  | first _ _ _ _ ihbelow ihrest =>
    exact List.Subset.trans (List.subset_cons_self _ _) (List.Subset.trans ihbelow ihrest)

theorem Prunes.fresh_eq (hp : h.Prunes claims spot pass entries out pass') :
    pass'.fresh = pass.fresh + out.containers.length := by
  induction hp with
  | nil => rfl
  | claimed _ _ ih => exact ih
  | scalar _ _ _ ih => exact ih
  | again _ _ _ ih =>
    rw [ih]
    simp [Pruned.container, Nat.add_comm, Nat.add_left_comm]
  | first _ _ _ _ ihbelow ihrest =>
    rw [ihrest, ihbelow]
    simp [Pruned.container, Nat.add_comm, Nat.add_left_comm, Nat.add_assoc]

/-- The walk over a heap that names only containers that exist comes to an end: below a container that
is yielded first, one container less is left to be yielded. -/
theorem exists_prunes (hc : h.Closed) (claims : Segment → Pointer → Tree → Bool) (spot : Spot)
    (pass : Pass) (hentries : ∀ e ∈ entries, h.Has e.2) :
    ∃ out pass', h.Prunes claims spot pass entries out pass' := by
  induction hn : h.unyielded pass.yielded using Nat.strongRecOn generalizing spot pass entries with
  | _ n ihn =>
    -- what follows an entry is walked with no more containers left, so it needs a bound, not a count
    have hle : h.unyielded pass.yielded ≤ n := Nat.le_of_eq hn
    clear hn
    induction entries generalizing spot pass with
    | nil => exact ⟨{}, pass, .nil⟩
    | cons entry rest ih =>
      obtain ⟨key, value⟩ := entry
      have hrest : ∀ e ∈ rest, h.Has e.2 := fun e he => hentries e (List.mem_cons_of_mem _ he)
      cases hclaim : claims key (spot.source.append key) value with
      | true =>
        obtain ⟨after, pass', hafter⟩ := ih spot
          { pass with yielded := value.id?.toList ++ pass.yielded } hrest
          ((unyielded_mono (List.subset_append_right _ _)).trans hle)
        exact ⟨after, pass', .claimed hclaim hafter⟩
      | false =>
        cases hvalue : value.id? with
        | none =>
          obtain ⟨after, pass', hafter⟩ := ih spot.next pass hrest hle
          exact ⟨_, pass', .scalar hclaim hvalue hafter⟩
        | some id =>
          obtain rfl := Tree.eq_container_of_id? hvalue
          by_cases hid : id ∈ pass.yielded
          · obtain ⟨after, pass', hafter⟩ := ih spot.next { pass with fresh := pass.fresh + 1 } hrest hle
            exact ⟨_, pass', .again hclaim hid hafter⟩
          · have hlt : id < h.size := hentries _ List.mem_cons_self id rfl
            have hfewer := unyielded_cons_lt hlt hid
            obtain ⟨below, pass₁, hbelow⟩ := ihn _ (Nat.lt_of_lt_of_le hfewer hle)
              (spot.inside key (h.isArray (.container id))) ⟨id :: pass.yielded, pass.fresh + 1⟩
              (hc.entries (.container id)) rfl
            have hle₁ := (unyielded_mono hbelow.yielded_subset).trans (hfewer.le.trans hle)
            obtain ⟨after, pass', hafter⟩ := ih spot.next pass₁ hrest hle₁
            exact ⟨_, pass', .first hclaim hid hbelow hafter⟩

/-- There is one result at most. -/
theorem Prunes.unique (hp : h.Prunes claims spot pass entries out pass') {out₂ : Pruned}
    {pass₂ : Pass} (hp₂ : h.Prunes claims spot pass entries out₂ pass₂) :
    out₂ = out ∧ pass₂ = pass' := by
  induction hp generalizing out₂ pass₂ with
  | nil => cases hp₂; exact ⟨rfl, rfl⟩
  | claimed hclaim _ ih =>
    cases hp₂ with
    | claimed _ hrest => exact ih hrest
    | scalar hclaim' | again hclaim' | first hclaim' => rw [hclaim] at hclaim'; cases hclaim'
  | scalar hclaim hvalue _ ih =>
    cases hp₂ with
    | claimed hclaim' => rw [hclaim] at hclaim'; cases hclaim'
    | scalar _ _ hrest => obtain ⟨rfl, rfl⟩ := ih hrest; exact ⟨rfl, rfl⟩
    | again | first => cases hvalue
  | again hclaim hid _ ih =>
    cases hp₂ with
    | claimed hclaim' => rw [hclaim] at hclaim'; cases hclaim'
    | scalar _ hvalue => cases hvalue
    | again _ _ hrest => obtain ⟨rfl, rfl⟩ := ih hrest; exact ⟨rfl, rfl⟩
    | first _ hid' => exact absurd hid hid'
  | first hclaim hid _ _ ihbelow ihrest =>
    cases hp₂ with
    | claimed hclaim' => rw [hclaim] at hclaim'; cases hclaim'
    | scalar _ hvalue => cases hvalue
    | again _ hid' => exact absurd hid' hid
    | first _ _ hbelow hrest =>
      obtain ⟨rfl, rfl⟩ := ihbelow hbelow
      obtain ⟨rfl, rfl⟩ := ihrest hrest
      exact ⟨rfl, rfl⟩

end Heap

end Lineage
