import Mathlib.Data.List.Basic

/-! # Handing out and taking back

A source hands out names and takes them back; a name that was taken back may be handed out again.
A `LeaseLog` numbers the leases in the order in which they were made.  Giving back a name is entered
under the number of its last lease, whether that has ended already or not, so a name that is given
back twice has its number in the log twice. -/

/-- The names handed out, the last one first, and the numbers of the leases that were ended. -/
structure LeaseLog (α : Type*) where
  issued : List α
  returned : List ℕ

namespace LeaseLog

variable {α : Type*} [DecidableEq α]

/-- The number of the last lease of a name. -/
def last : List α → α → Option ℕ
  | [], _ => none
  | b :: l, a => if b = a then some l.length else last l a

/-- A name is handed out. -/
def issue (log : LeaseLog α) (a : α) : LeaseLog α := { log with issued := a :: log.issued }

/-- A name is given back. -/
def giveBack (log : LeaseLog α) (a : α) : LeaseLog α :=
  { log with returned := log.returned ++ (last log.issued a).toList }

end LeaseLog
