import LoxFrontEnd.Proofs.Static.Sites

/-!
The local scopes of a tree. The rule that a local scope has one declaration of a name is about a site
and the names before it. Over a whole tree it says that the names of each local scope are distinct.
-/

namespace LoxFrontEnd

namespace Stmt

mutual

/-- The names declared in each of the local scopes that a statement has in it. -/
def localScopes : Stmt → List (List String)
  | .block body => body.flatMap declared :: allLocalScopes body
  | .ifElse _ thenBranch none => thenBranch.localScopes
  | .ifElse _ thenBranch (some elseBranch) => thenBranch.localScopes ++ elseBranch.localScopes
  | .whileLoop _ body => body.localScopes
  | .funDecl function => functionLocalScopes function
  | .classDecl _ _ methods _ => methodLocalScopes methods
  | .expr _ | .print _ | .ret _ _ | .varDecl _ _ _ => []

def allLocalScopes : List Stmt → List (List String)
  | [] => []
  | s :: ss => s.localScopes ++ allLocalScopes ss

def functionLocalScopes : Function → List (List String)
  | ⟨_, parameters, body, _⟩ =>
    (parameters.map Parameter.name ++ body.flatMap declared) :: allLocalScopes body

def methodLocalScopes : List Function → List (List String)
  | [] => []
  | f :: fs => functionLocalScopes f ++ methodLocalScopes fs

end

end Stmt

def Program.localScopes (p : Program) : List (List String) :=
  Stmt.allLocalScopes p.declarations

/-- No site declares a name that its local scope has already. -/
def Unrepeated (sites : List Site) : Prop :=
  ∀ site ∈ sites, ∀ line name, ¬ site.Breaks (.redeclared line name)

/-- A local scope can take all of these names, one behind the other. Outside of local scopes names may
be repeated. -/
def Surroundings.Takes (around : Surroundings) (names : List String) : Prop :=
  ∀ taken, around.scope = some taken → names.Nodup ∧ ∀ name ∈ names, name ∉ taken

theorem unrepeated_append {first second : List Site} :
    Unrepeated (first ++ second) ↔ Unrepeated first ∧ Unrepeated second :=
  List.forall_mem_append

theorem unrepeated_nil : Unrepeated [] := fun _ member => absurd member List.not_mem_nil

theorem Unrepeated.cons {site : Site} {sites : List Site} (unrepeated : Unrepeated sites)
    (other : ∀ name line, site.mention ≠ .declares name line) : Unrepeated (site :: sites) := by
  intro site' member line name breaks
  rcases List.mem_cons.mp member with rfl | member
  · cases breaks
    exact other _ _ rfl
  · exact unrepeated site' member line name breaks

theorem unrepeated_declares {around : Surroundings} {name : String} {line : Nat} {sites : List Site} :
    Unrepeated (⟨around, .declares name line⟩ :: sites) ↔ around.Takes [name] ∧ Unrepeated sites := by
  constructor
  · intro unrepeated
    refine ⟨fun taken isLocal => ⟨List.pairwise_singleton _ name, fun other member old => ?_⟩,
      fun site member => unrepeated site (List.mem_cons_of_mem _ member)⟩
    obtain rfl := List.mem_singleton.mp member
    exact unrepeated _ List.mem_cons_self line other (.redeclared isLocal old)
  · rintro ⟨takes, unrepeated⟩ site member line' name' breaks
    rcases List.mem_cons.mp member with rfl | member
    · cases breaks with
      | redeclared isLocal old => exact (takes _ isLocal).2 name (List.mem_singleton.mpr rfl) old
    · exact unrepeated site member line' name' breaks

namespace Surroundings

theorem takes_nil (around : Surroundings) : around.Takes [] :=
  fun _ _ => ⟨List.nodup_nil, fun _ member => absurd member List.not_mem_nil⟩

theorem takes_append {around : Surroundings} {first second : List String} :
    around.Takes (first ++ second) ↔ around.Takes first ∧ (around.behind first).Takes second := by
  obtain ⟨routine, enclosing, scope, initializing⟩ := around
  cases scope with
  | none => exact ⟨fun _ => ⟨nofun, nofun⟩, fun _ => nofun⟩
  | some taken =>
    simp only [Takes, behind, Option.map_some, Option.some.injEq, forall_eq', List.nodup_append,
      List.mem_append, not_or]
    constructor
    · rintro ⟨⟨distinct, distinct', apart⟩, fresh⟩
      exact ⟨⟨distinct, fun name member => fresh name (Or.inl member)⟩, distinct',
        fun name member => ⟨fresh name (Or.inr member), fun early => apart name early name member rfl⟩⟩
    · rintro ⟨⟨distinct, fresh⟩, distinct', fresh'⟩
      refine ⟨⟨distinct, distinct', ?_⟩, ?_⟩
      · rintro name early name' late rfl
        exact (fresh' name late).2 early
      · rintro name (early | late)
        · exact fresh name early
        · exact (fresh' name late).1

/-- A scope of its own has no name yet. -/
theorem inner_takes {around : Surroundings} {names : List String} :
    around.inner.Takes names ↔ names.Nodup := by
  simp [Takes, inner]

end Surroundings

namespace Expr

mutual

/-- Expressions declare nothing. -/
theorem sites_unrepeated (around : Surroundings) (e : Expr) : Unrepeated (e.sites around) := by
  match e with
  | .literal _ => exact unrepeated_nil
  | .var _ _ | .thisRef _ | .superRef _ _ => exact unrepeated_nil.cons (by simp)
  | .assign _ e | .getAttr e _ | .unary _ e | .grouping e => exact sites_unrepeated around e
  | .setAttr object _ value =>
    exact unrepeated_append.mpr ⟨sites_unrepeated around value, sites_unrepeated around object⟩
  | .logical _ left right | .binary _ left right =>
    exact unrepeated_append.mpr ⟨sites_unrepeated around left, sites_unrepeated around right⟩
  | .call callee arguments =>
    exact unrepeated_append.mpr ⟨sites_unrepeated around callee, allSites_unrepeated around arguments⟩

theorem allSites_unrepeated (around : Surroundings) (es : List Expr) : Unrepeated (allSites around es) := by
  match es with
  | [] => exact unrepeated_nil
  | e :: es => exact unrepeated_append.mpr ⟨sites_unrepeated around e, allSites_unrepeated around es⟩

end

theorem optionSites_unrepeated (around : Surroundings) (o : Option Expr) :
    Unrepeated (optionSites around o) := by
  cases o with
  | none => exact unrepeated_nil
  | some e => exact sites_unrepeated around e

end Expr

theorem parameterSites_unrepeated {around : Surroundings} {ps : List Parameter} :
    Unrepeated (parameterSites around ps) ↔ around.Takes (ps.map Parameter.name) := by
  induction ps generalizing around with
  | nil => exact iff_of_true unrepeated_nil around.takes_nil
  | cons p ps ih =>
    have split : around.Takes ([p.name] ++ ps.map Parameter.name) ↔ _ := Surroundings.takes_append
    rw [parameterSites, unrepeated_declares, ih]
    exact split.symm

namespace Stmt

mutual

/-- A statement repeats no name if the scope it stands in takes what it declares, and the names of each
scope inside of it are distinct. -/
theorem sites_unrepeated {around : Surroundings} {s : Stmt} :
    Unrepeated (s.sites around) ↔ around.Takes s.declared ∧ ∀ names ∈ s.localScopes, names.Nodup := by
  match s with
  | .expr e | .print e =>
    exact iff_of_true (e.sites_unrepeated around) ⟨around.takes_nil, nofun⟩
  | .ret value line =>
    have unrepeated := Expr.optionSites_unrepeated around value
    exact iff_of_true (unrepeated.cons (by simp)) ⟨around.takes_nil, nofun⟩
  | .block body =>
    rw [sites, allSites_unrepeated, Surroundings.inner_takes, localScopes, List.forall_mem_cons]
    exact (and_iff_right around.takes_nil).symm
  | .ifElse condition thenBranch none =>
    rw [sites, unrepeated_append, and_iff_right (condition.sites_unrepeated around)]
    exact sites_unrepeated
  | .ifElse condition thenBranch (some elseBranch) =>
    rw [sites, unrepeated_append, and_iff_right (condition.sites_unrepeated around), unrepeated_append,
      sites_unrepeated, sites_unrepeated, declared, Surroundings.takes_append, localScopes,
      List.forall_mem_append]
    exact and_and_and_comm
  | .whileLoop condition body =>
    rw [sites, unrepeated_append, and_iff_right (condition.sites_unrepeated around)]
    exact sites_unrepeated
  | .varDecl name initializer line =>
    rw [sites, unrepeated_declares]
    exact and_congr_right fun _ => iff_of_true (Expr.optionSites_unrepeated _ initializer) nofun
  | .funDecl function =>
    rw [sites, unrepeated_declares]
    exact and_congr_right fun _ => functionSites_unrepeated
  | .classDecl name superclass methods line =>
    have inherits :
        Unrepeated (superclass.toList.map fun above => ⟨around, .inherits name above line⟩) := by
      cases superclass with
      | none => exact unrepeated_nil
      | some above => exact unrepeated_nil.cons (by simp)
    rw [sites, unrepeated_declares, unrepeated_append, and_iff_right inherits]
    exact and_congr_right fun _ => methodSites_unrepeated

theorem allSites_unrepeated {around : Surroundings} {ss : List Stmt} :
    Unrepeated (allSites around ss) ↔
      around.Takes (ss.flatMap declared) ∧ ∀ names ∈ allLocalScopes ss, names.Nodup := by
  match ss with
  | [] => exact iff_of_true unrepeated_nil ⟨around.takes_nil, nofun⟩
  | s :: ss =>
    rw [allSites, unrepeated_append, sites_unrepeated, allSites_unrepeated, List.flatMap_cons,
      Surroundings.takes_append, allLocalScopes, List.forall_mem_append]
    exact and_and_and_comm

theorem functionSites_unrepeated {around : Surroundings} {routine : Routine} {f : Function} :
    Unrepeated (functionSites around routine f) ↔ ∀ names ∈ functionLocalScopes f, names.Nodup := by
  match f with
  | ⟨name, ps, body, line⟩ =>
    have inside : (Surroundings.inner { around with routine := some (routine, name) }).Takes
        (ps.map Parameter.name ++ body.flatMap declared) ↔ _ := Surroundings.inner_takes
    rw [functionSites, unrepeated_append, parameterSites_unrepeated, allSites_unrepeated, ← and_assoc,
      functionLocalScopes, List.forall_mem_cons, ← inside, Surroundings.takes_append]
    exact Iff.rfl

theorem methodSites_unrepeated {around : Surroundings} {fs : List Function} :
    Unrepeated (methodSites around fs) ↔ ∀ names ∈ methodLocalScopes fs, names.Nodup := by
  match fs with
  | [] => exact iff_of_true unrepeated_nil nofun
  | f :: fs =>
    rw [methodSites, unrepeated_append, functionSites_unrepeated, methodSites_unrepeated, methodLocalScopes,
      List.forall_mem_append]

end

end Stmt

/-- A program repeats no name exactly if each of its local scopes has distinct names. -/
theorem Program.sites_unrepeated (p : Program) :
    Unrepeated p.sites ↔ ∀ names ∈ p.localScopes, names.Nodup := by
  rw [sites, Stmt.allSites_unrepeated]
  exact and_iff_right nofun

end LoxFrontEnd
