import SequentProver.Rule.Basic

/-! # Skeletons

    A proof without its sequents: the rules and comments, in the shape of
    the tree.  That is what is kept to replay a proof elsewhere. -/

namespace SequentProver

/-- A recorded proof: rules and comments, but no sequents. -/
inductive Skeleton where
  | mk (comment : String) (rule : Option Rule) (children : List Skeleton)

namespace Skeleton

/-- The comment at the top. -/
def comment : Skeleton → String
  | .mk comment _ _ => comment

/-- The rule at the top, if one was recorded. -/
def rule : Skeleton → Option Rule
  | .mk _ rule _ => rule

/-- The skeletons below it. -/
def children : Skeleton → List Skeleton
  | .mk _ _ children => children

mutual

/-- Number of recorded rules. -/
def ruleCount : Skeleton → Nat
  | .mk _ rule children => (if rule.isSome then 1 else 0) + ruleCountAmong children

/-- Number of rules in siblings. -/
def ruleCountAmong : List Skeleton → Nat
  | [] => 0
  | s :: rest => ruleCount s + ruleCountAmong rest

end

end Skeleton

end SequentProver
