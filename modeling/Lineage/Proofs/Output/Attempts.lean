import Lineage.Proofs.Output.Put

/-! Actions that are tried one after the other, whether those before them failed or not. Writes
straight through proxies are refused, one and all, when the sinks of the proxies are closed. -/

namespace Lineage

variable {ε σ α β : Type}

/-- What is answered, whatever is left behind. -/
def outcome : EStateM.Result ε σ α → Except ε α
  | .ok a _ => .ok a
  | .error e _ => .error e

/-- The answers to actions that are tried in order, and what they leave behind. -/
def attempt (f : β → EStateM ε σ α) : List β → σ → List (Except ε α) × σ
  | [], s => ([], s)
  | b :: rest, s =>
    let (answers, s') := attempt f rest (after (f b s))
    (outcome (f b s) :: answers, s')

theorem attempt_cons (f : β → EStateM ε σ α) (b : β) (rest : List β) (s : σ) :
    attempt f (b :: rest) s = (outcome (f b s) :: (attempt f rest (after (f b s))).1,
      (attempt f rest (after (f b s))).2) := rfl

/-- Where no action changes anything, each is answered as if it were the only one. -/
theorem attempt_of_after_eq {f : β → EStateM ε σ α} {bs : List β} {s : σ}
    (h : ∀ b ∈ bs, after (f b s) = s) : attempt f bs s = (bs.map fun b => outcome (f b s), s) := by
  induction bs with
  | nil => rfl
  | cons b rest ih =>
    rw [attempt_cons, h b List.mem_cons_self, ih fun b' hb' => h b' (List.mem_cons_of_mem _ hb')]
    rfl

/-- A write straight through a proxy. -/
inductive DirectWrite where
  | put (p : Proxy) (key : Segment) (a : Assignment)
  | push (p : Proxy) (a : Assignment)

namespace DirectWrite

def proxy : DirectWrite → Proxy
  | put p _ _ | push p _ => p

def run : DirectWrite → WriteM Unit
  | put p key a => p.put key a
  | push p a => p.push a

/-- Where the write goes: a push goes behind the last item. -/
def key (w : Workspace) : DirectWrite → Segment
  | put _ key _ => key
  | push p _ => .index (w.heap.length p.tree)

def assignment : DirectWrite → Assignment
  | put _ _ a | push _ a => a

theorem run_eq_put (d : DirectWrite) (w : Workspace) :
    d.run w = d.proxy.put (d.key w) d.assignment w := by
  cases d <;> rfl

/-- A closed sink refuses every write, whatever else may be wrong with it. -/
theorem run_of_closed {d : DirectWrite} {w : Workspace} (h : w.accepts d.proxy.sink = false) :
    ∃ e, d.run w = .error e w := by
  rw [run_eq_put]
  rcases d.proxy.put_cases (d.key w) d.assignment w with he | ⟨_, _, _, _, _, _, hopen, _⟩
  · exact he
  · rw [h] at hopen
    cases hopen

/-- So do all of them together, in whatever order they are tried. -/
theorem attempt_of_closed {writes : List DirectWrite} {w : Workspace}
    (h : ∀ d ∈ writes, w.accepts d.proxy.sink = false) :
    ∃ errors : List WriteError, attempt run writes w = (errors.map .error, w) := by
  induction writes with
  | nil => exact ⟨[], rfl⟩
  | cons d rest ih =>
    obtain ⟨e, he⟩ := run_of_closed (h d List.mem_cons_self)
    obtain ⟨errors, hrest⟩ := ih fun d' hd' => h d' (List.mem_cons_of_mem _ hd')
    refine ⟨e :: errors, ?_⟩
    rw [attempt_cons, he, outcome, after, hrest]
    rfl

end DirectWrite

end Lineage
