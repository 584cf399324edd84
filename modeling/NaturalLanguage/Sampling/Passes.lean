import NaturalLanguage.Sampling.Height

/-!
# Heights found in place

Heights can also be found in one table that is improved head by head. The alternatives of a head are
looked at with the heights that the table holds by then, some of them found in the same pass, so a
height may be listed too high at first and lowered later. Passes over all heads are made until one
of them changes nothing.

* `Grammar.improve`: what is done for one head.
* `Grammar.pass`: one pass, and whether it changed anything.
* `Grammar.settleWithin`: passes until nothing changes.
-/

namespace NaturalLanguage.Grammar

/-- List the least height of the alternatives of a head, unless the table has one that is as low.
The mark tells whether something was changed. -/
def improve (g : Grammar) (found : Heights × Bool)
    (row : Symbol × OrderedSet (List Symbol)) : Heights × Bool :=
  match (row.2.toList.filterMap (g.bodyHeight found.1)).min? with
  | none => found
  | some height =>
    if (found.1.lookup row.1).all (height < ·) then
      ((row.1, height) :: found.1.filter (·.1 ≠ row.1), true)
    else found

/-- Improve the heights of all heads once, and tell whether something was changed. -/
def pass (g : Grammar) (heights : Heights) : Heights × Bool :=
  g.rules.rows.foldl g.improve (heights, false)

/-- Make passes until one of them changes nothing, at most `limit` of them. -/
def settleWithin (g : Grammar) : (limit : Nat) → Heights → Option Heights
  | 0, _ => none
  | limit + 1, heights =>
    if (g.pass heights).2 then g.settleWithin limit (g.pass heights).1
    else some (g.pass heights).1

end NaturalLanguage.Grammar
