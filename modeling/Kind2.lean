import Kind2.Property
import Kind2.IC3.Clause
import Kind2.Lustre.Expr
import Kind2.Utils.TrieSubsume
import Kind2.Utils.TrieZip
import Kind2.Extract
import Kind2.QE.CooperQE
import Kind2.Terms.Ltree.Hashcons
import Kind2.Terms.Ltree.Quantifier
import Kind2.Lustre.Slicing.Deps
import Kind2.InvGen.Graph
import Kind2.Terms.Decimal
import Kind2.QE.SolveEqs
import Kind2.Terms.Logic
import Kind2.Simplify.Symbolic
import Kind2.QE.Presburger.Sound
