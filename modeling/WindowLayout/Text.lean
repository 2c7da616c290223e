namespace WindowLayout.Text

/-- First and last code point of each run of blank characters. -/
def blanks : List (Nat × Nat) :=
  [(0x9, 0xD), (0x20, 0x20), (0x85, 0x85), (0xA0, 0xA0), (0x1680, 0x1680), (0x2000, 0x200A),
    (0x2028, 0x2029), (0x202F, 0x202F), (0x205F, 0x205F), (0x3000, 0x3000)]

def isBlank (c : Char) : Bool :=
  blanks.any fun run => run.1 ≤ c.toNat && c.toNat ≤ run.2

def withoutBlanks (text : List Char) : List Char := text.filter (!isBlank ·)

theorem isBlank_of_isWhitespace {c : Char} (h : c.isWhitespace) : isBlank c := by
  simp only [Char.isWhitespace, Bool.or_eq_true, decide_eq_true_eq] at h
  rcases h with ((rfl | rfl) | rfl) | rfl <;> decide

inductive Grammar (Name : Type) : Type
  | empty
  | char (accepts : Char → Bool)
  | seq (first second : Grammar Name)
  | choice (first second : Grammar Name)
  | many (body : Grammar Name)
  | absent (body : Grammar Name)
  | named (name : Name) (body : Grammar Name)

namespace Grammar

variable {Name : Type}

def any : Grammar Name := .char fun _ => true

def literal (c : Char) : Grammar Name := .char (· == c)

def oneOrMore (body : Grammar Name) : Grammar Name := .seq body (.many body)

def optional (body : Grammar Name) : Grammar Name := .choice body .empty

def finish : Grammar Name := .absent any

abbrev Match (Name : Type) : Type := List (Name × List Char) × List Char

/-- What matching a text from its start gives, `none` standing for failure. -/
inductive Matches : Grammar Name → List Char → Option (Match Name) → Prop
  | empty (s) : Matches .empty s (some ([], s))
  | char {accepts c} (s) : accepts c = true → Matches (.char accepts) (c :: s) (some ([], s))
  | char_other {accepts c} (s) : accepts c = false → Matches (.char accepts) (c :: s) none
  | char_end (accepts) : Matches (.char accepts) [] none
  | seq {p q s xs ys r t} :
    Matches p s (some (xs, r)) → Matches q r (some (ys, t)) →
    Matches (.seq p q) s (some (xs ++ ys, t))
  | seq_first {p q s} : Matches p s none → Matches (.seq p q) s none
  | seq_second {p q s xs r} :
    Matches p s (some (xs, r)) → Matches q r none → Matches (.seq p q) s none
  | choice_first {p q s m} : Matches p s (some m) → Matches (.choice p q) s (some m)
  | choice_second {p q s m} : Matches p s none → Matches q s m → Matches (.choice p q) s m
  | many_end {p s} : Matches p s none → Matches (.many p) s (some ([], s))
  | many {p s xs ys r t} :
    Matches p s (some (xs, r)) → Matches (.many p) r (some (ys, t)) →
    Matches (.many p) s (some (xs ++ ys, t))
  | absent {p s} : Matches p s none → Matches (.absent p) s (some ([], s))
  | absent_fails {p s m} : Matches p s (some m) → Matches (.absent p) s none
  | named {name p text xs r} :
    Matches p (text ++ r) (some (xs, r)) →
    Matches (.named name p) (text ++ r) (some ([(name, text)], r))
  | named_fails {name p s} : Matches p s none → Matches (.named name p) s none

end Grammar

end WindowLayout.Text
