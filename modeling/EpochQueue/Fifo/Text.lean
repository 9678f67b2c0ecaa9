/-
  EpochQueue.Fifo.Text — how backoff limits, queues and iterators are shown.

  What is shown is a small tree: a word, a number, a record with a name and fields, or a name
  around one thing. It is written on one line, or over several with four blanks of indentation
  a level and a comma after every part. A record that does not show all of its fields ends in
  two dots.
-/

import EpochQueue.Fifo.Backoff

namespace EpochQueue.Fifo

inductive Shown where
  | word (s : String)
  /-- Fields in order; `whole` if there are no others. -/
  | record (name : String) (fields : List (String × Shown)) (whole : Bool)
  | around (name : String) (inner : Shown)

namespace Shown

mutual
/-- On one line. -/
def line : Shown → String
  | .word s => s
  | .record name fields whole =>
    name ++ " \x7b " ++ String.intercalate ", " (lineFields fields ++ if whole then [] else [".."])
      ++ " \x7d"
  | .around name inner => name ++ "(" ++ inner.line ++ ")"

def lineFields : List (String × Shown) → List String
  | [] => []
  | (name, x) :: rest => (name ++ ": " ++ x.line) :: lineFields rest
end

def indent : String := "    "

mutual
/-- Over several lines, of which all but the first start at `margin`. -/
def block (margin : String) : Shown → String
  | .word s => s
  | .record name fields whole =>
    name ++ " \x7b\n" ++ blockFields (margin ++ indent) fields
      ++ (if whole then "" else margin ++ indent ++ "..\n") ++ margin ++ "\x7d"
  | .around name inner =>
    name ++ "(\n" ++ margin ++ indent ++ inner.block (margin ++ indent) ++ ",\n" ++ margin ++ ")"

def blockFields (margin : String) : List (String × Shown) → String
  | [] => ""
  | (name, x) :: rest =>
    margin ++ name ++ ": " ++ x.block margin ++ ",\n" ++ blockFields margin rest
end

def render (x : Shown) (alternate : Bool) : String := if alternate then x.block "" else x.line

end Shown

def Limits.shown (l : Limits) : Shown :=
  .record "BackoffConfig"
    [("spin_limit", .word (toString l.spin.toNat)), ("yield_limit", .word (toString l.yield.toNat))]
    true

/-- A queue shows whether it is empty, and its limits, but not what it holds. -/
def shownQueue (isEmpty : Bool) (l : Limits) : Shown :=
  .record "Queue" [("is_empty", .word (if isEmpty then "true" else "false")), ("backoff", l.shown)]
    false

def shownIterator (isEmpty : Bool) (l : Limits) : Shown :=
  .around "IntoIter" (shownQueue isEmpty l)

end EpochQueue.Fifo
