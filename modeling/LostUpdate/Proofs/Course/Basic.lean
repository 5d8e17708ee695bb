import LostUpdate.Flow.Basic
import Mathlib

namespace LostUpdate

open Computability

/-- The courses that run through and those that leave by each jump. -/
abbrev Courses := Option Jump → Language Node

namespace Courses

def never : Courses := fun _ => 0

def idle : Courses
  | none => 1
  | some _ => 0

def name (n : Node) : Courses
  | none => {[n]}
  | some _ => 0

def leave (k : Jump) : Courses := fun o => if o = some k then 1 else 0

/-- A course of `a`, followed by one of `b` if it runs through. -/
def andThen (a b : Courses) : Courses
  | none => a none * b none
  | some k => a (some k) + a none * b (some k)

def either (a b : Courses) : Courses := fun o => a o + b o

/-- One after the other. -/
def all : List Courses → Courses
  | [] => idle
  | a :: l => a.andThen (all l)

def oneOf : List Courses → Courses
  | [] => never
  | a :: l => a.either (oneOf l)

/-- The first few, one after the other, or none. -/
def someOf : List Courses → Courses
  | [] => idle
  | a :: l => idle.either (a.andThen (someOf l))

/-- How the body of a loop ends the loop: by `break`, or by leaving the code around it. -/
def breaking (body : Courses) : Courses
  | none => body (some .breakLoop)
  | some .breakLoop | some .continueLoop => 0
  | some k => body (some k)

/-- A turn of a loop after which comes another: the head, then a body that ends or continues. -/
def turn (head body : Courses) : Language Node :=
  head none * (body none + body (some .continueLoop))

/-- Any number of turns and the head once more. It ends the loop, and `orelse` follows, or the body
does. -/
def loop (head body orelse : Courses) : Courses := fun o =>
  (turn head body)∗ * head.andThen (body.breaking.either orelse) o

@[simp] theorem idle_andThen (a : Courses) : idle.andThen a = a := by
  funext o
  cases o <;> simp [andThen, idle]

@[simp] theorem andThen_idle (a : Courses) : a.andThen idle = a := by
  funext o
  cases o <;> simp [andThen, idle]

theorem andThen_assoc (a b c : Courses) : (a.andThen b).andThen c = a.andThen (b.andThen c) := by
  funext o
  cases o <;> simp only [andThen, mul_assoc, mul_add, add_assoc]

@[simp] theorem never_either (a : Courses) : never.either a = a :=
  funext fun o => zero_add (a o)

@[simp] theorem either_never (a : Courses) : a.either never = a :=
  funext fun o => add_zero (a o)

@[simp] theorem all_nil : all [] = idle := rfl

@[simp] theorem all_cons (a : Courses) (l : List Courses) : all (a :: l) = a.andThen (all l) := rfl

theorem all_append (l m : List Courses) : all (l ++ m) = (all l).andThen (all m) := by
  induction l with
  | nil => simp
  | cons a l ih => rw [List.cons_append, all_cons, all_cons, ih, andThen_assoc]

end Courses

end LostUpdate
