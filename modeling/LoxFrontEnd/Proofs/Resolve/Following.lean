import LoxFrontEnd.Proofs.Static.Sites
import LoxFrontEnd.Resolve.Tree

/-!
A check follows a list of sites if it fails with the first mistake of the list, and succeeds where there
is none. Checks in a sequence follow their lists one behind the other.
-/

namespace LoxFrontEnd

theorem clean_nil : Clean [] := fun _ member => absurd member List.not_mem_nil

theorem Clean.append {first second : List Site} (clean : Clean first) (clean' : Clean second) :
    Clean (first ++ second) := by
  intro site member
  rcases List.mem_append.mp member with early | late
  · exact clean site early
  · exact clean' site late

theorem FirstMistake.append_right {first : List Site} {e : ResolveError} (mistake : FirstMistake first e)
    (second : List Site) : FirstMistake (first ++ second) e := by
  obtain ⟨before, site, after, rfl, clean, breaks⟩ := mistake
  exact ⟨before, site, after ++ second, by rw [List.append_assoc, List.cons_append], clean, breaks⟩

theorem Clean.firstMistake {first second : List Site} {e : ResolveError} (clean : Clean first)
    (mistake : FirstMistake second e) : FirstMistake (first ++ second) e := by
  obtain ⟨before, site, after, rfl, clean', breaks⟩ := mistake
  exact ⟨first ++ before, site, after, by rw [List.append_assoc], clean.append clean', breaks⟩

theorem Site.Breaks.firstMistake {site : Site} {e : ResolveError} (breaks : site.Breaks e)
    (others : List Site) :
    FirstMistake (site :: others) e :=
  ⟨[], site, others, rfl, clean_nil, breaks⟩

theorem clean_singleton {site : Site} (clean : ∀ e, ¬ site.Breaks e) : Clean [site] := by
  intro other member
  rw [List.mem_singleton.mp member]
  exact clean

/-- A site breaks one rule at most. -/
theorem Site.Breaks.unique {site : Site} {e e' : ResolveError} (breaks : site.Breaks e)
    (breaks' : site.Breaks e') : e = e' := by
  cases breaks <;> cases breaks' <;> simp_all

/-- There is one first mistake at most, and none in a clean list. -/
theorem FirstMistake.unique {sites : List Site} {e e' : ResolveError} (mistake : FirstMistake sites e)
    (mistake' : FirstMistake sites e') : e = e' := by
  obtain ⟨before, site, after, rfl, clean, breaks⟩ := mistake
  obtain ⟨before', site', after', same, clean', breaks'⟩ := mistake'
  rcases List.append_eq_append_iff.mp same with ⟨more, rfl, split⟩ | ⟨more, rfl, split⟩
  · cases more with
    | nil =>
      obtain ⟨rfl, -⟩ := List.cons.inj split
      exact breaks.unique breaks'
    | cons other others =>
      obtain ⟨rfl, -⟩ := List.cons.inj split
      exact absurd breaks (clean' site (by simp) e)
  · cases more with
    | nil =>
      obtain ⟨rfl, -⟩ := List.cons.inj split
      exact breaks.unique breaks'
    | cons other others =>
      obtain ⟨rfl, -⟩ := List.cons.inj split
      exact absurd breaks' (clean site' (by simp) e')

theorem FirstMistake.not_clean {sites : List Site} {e : ResolveError} (mistake : FirstMistake sites e) :
    ¬ Clean sites := by
  obtain ⟨before, site, after, rfl, _, breaks⟩ := mistake
  exact fun clean => clean site (by simp) e breaks

namespace Resolve

variable {r : Resolver} {P Q : Resolver → Prop} {first second : List Site} {check next : Resolve Unit}

/-- Where there is a mistake the check fails with the first one, else it ends well in such a state. -/
def Follows (check : Resolve Unit) (r : Resolver) (sites : List Site) (post : Resolver → Prop) : Prop :=
  match check r with
  | .ok _ after => Clean sites ∧ post after
  | .error e _ => FirstMistake sites e

theorem follows_of_ok {after : Resolver} (run : check r = .ok () after) (clean : Clean first)
    (known : P after) : Follows check r first P := by
  rw [Follows, run]
  exact ⟨clean, known⟩

theorem follows_of_error {after : Resolver} {e : ResolveError} (run : check r = .error e after)
    (mistake : FirstMistake first e) : Follows check r first P := by
  rw [Follows, run]
  exact mistake

theorem follows_pure (known : P r) : Follows (pure ()) r [] P :=
  follows_of_ok rfl clean_nil known

theorem Follows.cases (follows : Follows check r first P) :
    (∃ after, check r = .ok () after ∧ Clean first ∧ P after) ∨
      ∃ e after, check r = .error e after ∧ FirstMistake first e := by
  rw [Follows] at follows
  rcases run : check r with ⟨_, after⟩ | ⟨e, after⟩
  · rw [run] at follows
    exact Or.inl ⟨after, rfl, follows⟩
  · rw [run] at follows
    exact Or.inr ⟨e, after, rfl, follows⟩

theorem Follows.mono (follows : Follows check r first P) (weaker : ∀ after, P after → Q after) :
    Follows check r first Q := by
  rcases follows.cases with ⟨after, run, clean, known⟩ | ⟨e, after, run, mistake⟩
  · exact follows_of_ok run clean (weaker after known)
  · exact follows_of_error run mistake

theorem Follows.seq (follows : Follows check r first P)
    (onward : ∀ after, P after → Follows next after second Q) :
    Follows (check >>= fun _ => next) r (first ++ second) Q := by
  rcases follows.cases with ⟨after, run, clean, known⟩ | ⟨e, after, run, mistake⟩
  · have step : (check >>= fun _ => next) r = next after := bind_of_ok run
    rcases (onward after known).cases with ⟨last, run', clean', known'⟩ | ⟨e, last, run', mistake⟩
    · exact follows_of_ok (step.trans run') (clean.append clean') known'
    · exact follows_of_error (step.trans run') (clean.firstMistake mistake)
  · exact follows_of_error (bind_of_error run) (mistake.append_right second)

theorem throw_if (broken : Prop) [Decidable broken] (e : ResolveError) (r : Resolver) :
    (if broken then throw e else pure () : Resolve Unit) r = if broken then .error e r else .ok () r := by
  split <;> rfl

theorem Follows.within {enter : Resolver → Resolver} {leave : Resolver → Resolver → Resolver}
    (follows : Follows check (enter r) first P) (back : ∀ after, P after → Q (leave r after)) :
    Follows (within enter leave check) r first Q := by
  rcases follows.cases with ⟨after, run, clean, known⟩ | ⟨e, after, run, mistake⟩
  · exact follows_of_ok (by rw [Resolve.within, run]) clean (back after known)
  · exact follows_of_error (by rw [Resolve.within, run]) mistake

end Resolve

/-- What a local scope says about a name, with these names declared so far. -/
def Surroundings.entry? (around : Surroundings) (names : List String) (name : String) : Option Status :=
  if around.initializing = some name then some .declared
  else if name ∈ names then some .defined
  else none

def Surroundings.functionKind (around : Surroundings) : FunctionKind :=
  match around.routine with
  | none => .none
  | some (.function, _) => .function
  | some (.method, name) => if name = "init" then .initializer else .method

def Surroundings.classKind (around : Surroundings) : ClassKind :=
  match around.enclosing with
  | none => .none
  | some none => .base
  | some (some _) => .derived

/-- The state of a check is the one that belongs to its surroundings: the registers tell the innermost
routine and class, and the innermost scope has the names declared so far. -/
structure Surroundings.Matches (around : Surroundings) (r : Resolver) : Prop where
  functionKind : r.functionKind = around.functionKind
  classKind : r.classKind = around.classKind
  scope :
    match around.scope with
    | none => r.scopes = []
    | some names => ∃ scope outer, r.scopes = scope :: outer ∧
        ∀ name, scope.lookup name = around.entry? names name

theorem Surroundings.outermost_matches : Surroundings.outermost.Matches .top := ⟨rfl, rfl, rfl⟩

end LoxFrontEnd
