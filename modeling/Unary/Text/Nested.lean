/-!
Parenthesised text: an inner text inside a run of opened parentheses, and parts in a list.
-/

namespace Unary.Text

/-- Write `opening` `n` times, then the inner text, then as many closing parentheses. -/
def nested (n : Nat) (opening inner : List Char) : List Char :=
  (List.replicate n opening).flatten ++ inner ++ List.replicate n ')'

@[simp]
theorem nested_zero (opening inner : List Char) : nested 0 opening inner = inner := by
  simp [nested]

theorem nested_succ (n : Nat) (opening inner : List Char) :
    nested (n + 1) opening inner = nested n opening (opening ++ inner ++ [')']) := by
  have h : List.replicate (n + 1) ')' = ')' :: List.replicate n ')' := rfl
  simp [nested, h, List.replicate_succ' (a := opening)]

/-- Parts with a comma and a space between them. -/
def commaSeparated (parts : List (List Char)) : List Char :=
  [',', ' '].intercalate parts

/-- Parts in parentheses, with a comma after the only part. -/
def tuple : List (List Char) → List Char
  | [part] => '(' :: part ++ [',', ')']
  | parts => '(' :: commaSeparated parts ++ [')']

end Unary.Text
