import LoxFrontEnd.Resolve.Tree
import LoxFrontEnd.Script

/-!
Scripts that are checked one after another by one resolver.
-/

namespace LoxFrontEnd

/-- What is said of a script: the errors in its text, or the result of the static checks. -/
inductive Verdict where
  | unreadable (errors : List SyntaxError)
  | checked (result : Except ResolveError Unit)

namespace Resolver

/-- Only a script without errors in its text reaches the resolver. -/
def checkScript (r : Resolver) (source : String) : Verdict × Resolver :=
  match parse source with
  | .error errors => (.unreadable errors, r)
  | .ok program =>
    let (result, after) := r.check program
    (.checked result, after)

def checkScripts (r : Resolver) : List String → List Verdict × Resolver
  | [] => ([], r)
  | source :: sources =>
    let (verdict, after) := r.checkScript source
    let (verdicts, last) := after.checkScripts sources
    (verdict :: verdicts, last)

end Resolver

end LoxFrontEnd
