import LoxFrontEnd.Main
import LoxFrontEnd.Resolve.Script
import LoxFrontEnd.Trace
import LoxFrontEnd.Proofs.Lexical.MaximalMunch
import LoxFrontEnd.Proofs.Lexical.Layout
import LoxFrontEnd.Proofs.Lexical.Writing
import LoxFrontEnd.Proofs.Parse.Program
import LoxFrontEnd.Proofs.Parse.Canonical
import LoxFrontEnd.Proofs.Parse.CanonicalProgram
import LoxFrontEnd.Proofs.Parse.ViablePrefix
import LoxFrontEnd.Proofs.Parse.EntryPoints
import LoxFrontEnd.Proofs.Parse.Loops
import LoxFrontEnd.Proofs.Parse.Unguarded
import LoxFrontEnd.Proofs.Parse.Enclosures
import LoxFrontEnd.Proofs.Machine.Termination
import LoxFrontEnd.Proofs.Machine.Sessions
import LoxFrontEnd.Proofs.Machine.Queue
import LoxFrontEnd.Proofs.Static.LocalScopes
import LoxFrontEnd.Proofs.Resolve.Check
import LoxFrontEnd.Proofs.Resolve.Restoring
import LoxFrontEnd.Proofs.Resolve.Independence
import LoxFrontEnd.Proofs.Parse.Nesting
import LoxFrontEnd.Proofs.Parse.Kinds
import LoxFrontEnd.Proofs.Script.Printing
import LoxFrontEnd.Proofs.Machine.Recovery
import LoxFrontEnd.Proofs.Scanner.Basic
import LoxFrontEnd.Proofs.Script.Log
import LoxFrontEnd.Proofs.Scanner.Cursors
import LoxFrontEnd.Proofs.Scanner.Pieces
