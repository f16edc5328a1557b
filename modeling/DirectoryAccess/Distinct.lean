/-!
# Lists without repetition

A list that is built by appending holds at most one member of each class of
equivalent ones: the first that was pushed.
-/

namespace DirectoryAccess

namespace Distinct

variable {α : Type}

/-- Appends `x` unless an equivalent member is already there. -/
def push (same : α → α → Bool) (xs : List α) (x : α) : List α :=
  if xs.any fun y => same y x then xs else xs ++ [x]

def pushAll (same : α → α → Bool) (xs ys : List α) : List α :=
  ys.foldl (push same) xs

/-- The members of a list, the first of each class only. -/
def ofList (same : α → α → Bool) (ys : List α) : List α :=
  pushAll same [] ys

end Distinct

end DirectoryAccess
