import Spacing.Digraph
import Spacing.Problem.Basic

namespace Spacing.Problem

variable {α : Type} [Scalar α]

def graph (p : Problem α) : Digraph where
  successors := p.vars.map fun x => x.outs.map fun c => (p.constraintAt c).right

def isCyclic (p : Problem α) : Bool :=
  p.graph.isCyclic (p.vars.map fun x => x.ins.length)

def order (p : Problem α) : List VarId :=
  p.graph.order (p.variableIds.filter fun v => (p.variableAt v).ins.isEmpty)

end Spacing.Problem
