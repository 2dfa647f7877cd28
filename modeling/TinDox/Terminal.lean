import TinDox.Stateful
import TinDox.UserTable

/-! What the administration commands read and print, and the file system they work on. -/

namespace TinDox

open Stateful

/-- `std::cin` and `std::cout`. -/
structure Terminal where
  input : Bytes
  good : Bool
  output : Bytes

/-- `std::getline`. Once the input has ended, it leaves the string alone. -/
def Terminal.getline (t : Terminal) (str : Bytes) : Terminal × Bytes :=
  if t.good then
    match t.input.dropWhile (· ≠ newline) with
    | [] => ({ t with input := [], good := false }, t.input)
    | _ :: rest => ({ t with input := rest }, t.input.takeWhile (· ≠ newline))
  else (t, str)

/-- A line of the input, or none at all. -/
def Terminal.Has (t : Terminal) (str : Bytes) : Prop := str = [] ∨ str ∈ t.input.splitOn newline

structure Host where
  fs : FileSystem
  terminal : Terminal

/-- The location that a process in the directory gets to. An empty path leads nowhere. -/
def FileSystem.resolveFrom (fs : FileSystem) (currentPath p : Path) : Option Key :=
  if p.native = [] then none else fs.resolve (currentPath / p)

inductive CliException where
  | table (e : UserTableException)
  | runtime (what : Bytes)
  | filesystem (e : Errno)
  | noSuchCommand (what : Bytes)
  | invalidExecution (what : Bytes)
  deriving DecidableEq

abbrev Tds (α : Type) := Computation CliException Host α

namespace Tds

def print (text : Bytes) : Tds Unit :=
  modify fun h => { h with terminal := { h.terminal with output := h.terminal.output ++ text } }

def getline (str : Bytes) : Tds Bytes :=
  modifyGet fun h => ((h.terminal.getline str).2, { h with terminal := (h.terminal.getline str).1 })

def invalidArguments (what usage : Bytes) : CliException := .table (.invalidArguments what usage)

/-- `fs::exists` for a process in the directory. -/
def fsExists (currentPath p : Path) : Tds Bool := do
  let h ← get
  if p.native ≠ [] ∧ h.fs.tooLong (currentPath / p) = true then throw (.filesystem .enametoolong)
  else pure (h.fs.resolveFrom currentPath p).isSome

/-- `UserSubcommandBase::max_try_count`. -/
def maxTryCount : Nat := 3

def tooManyAttempts : CliException := .invalidExecution (ascii "too many attempts (max is " ++ decimal maxTryCount ++ ascii ")")

/-- A line is read until it is accepted. The prompt of the first attempt is another one than that of the
others, and a line break is printed behind what is not shown. -/
def readLine (first again after : Bytes) (accepts : Bytes → Bool) : Tds Bytes :=
  attempts (fun i str => do
    print (if i = 0 then first else again)
    let str ← getline str
    print after
    pure str) accepts tooManyAttempts 0 maxTryCount []

end Tds

namespace Terminal

variable {t : Terminal} {str : Bytes}

theorem Has.of_rest {before rest : Bytes} (hinput : t.input = before ++ newline :: rest)
    (h : str = [] ∨ str ∈ rest.splitOn newline) : t.Has str := by
  rcases h with h | h
  · exact .inl h
  · right
    rw [hinput, List.splitOn_append_cons_self]
    exact List.mem_append_right _ h

/-- What `getline` changes the string to is a line of the input, and what it leaves has no other lines. -/
theorem getline_has (t : Terminal) (str : Bytes) :
    ((t.getline str).2 = str ∨ t.Has (t.getline str).2) ∧ ∀ line, (t.getline str).1.Has line → t.Has line := by
  unfold getline
  by_cases hgood : t.good = true
  · rw [if_pos hgood]
    have hinput := List.takeWhile_append_dropWhile (p := (· ≠ newline)) (l := t.input)
    cases hrest : t.input.dropWhile (· ≠ newline) with
    | nil =>
      rw [hrest, List.append_nil] at hinput
      have hline : newline ∉ t.input := by
        rw [← hinput]
        intro hmem
        simpa using List.mem_takeWhile_imp hmem
      refine ⟨.inr (.inr ?_), ?_⟩
      · rw [List.splitOn_eq_singleton hline]
        exact List.mem_singleton_self _
      · rintro line (hl | hl)
        · exact .inl hl
        · exact .inl (List.mem_singleton.mp hl)
    | cons b rest =>
      obtain rfl : b = newline := by
        have hhead := List.head?_dropWhile_not (· ≠ newline) t.input
        rw [hrest] at hhead
        simpa using hhead
      rw [hrest] at hinput
      refine ⟨.inr (.inr ?_), fun line hl => .of_rest hinput.symm hl⟩
      have hline : newline ∉ t.input.takeWhile (· ≠ newline) := fun hmem => by simpa using List.mem_takeWhile_imp hmem
      have hsplit := List.splitOn_append_cons_self (a := newline) (t.input.takeWhile (· ≠ newline)) rest
      rw [hinput, List.splitOn_eq_singleton hline] at hsplit
      rw [hsplit]
      exact List.mem_cons_self
  · rw [if_neg hgood]
    exact ⟨.inl rfl, fun line hl => hl⟩

end Terminal

namespace Host

/-- Lines are read, and the file system is left alone. -/
structure Reads (h h' : Host) : Prop where
  fs : h'.fs = h.fs
  lines : ∀ line, h'.terminal.Has line → h.terminal.Has line

theorem Reads.trans {h h' h'' : Host} (hr : Reads h h') (hr' : Reads h' h'') : Reads h h'' :=
  ⟨hr'.fs.trans hr.fs, fun line hl => hr.lines line (hr'.lines line hl)⟩

instance : IsPreorder Host Reads where
  refl _ := ⟨rfl, fun _ hl => hl⟩
  trans _ _ _ := Reads.trans

end Host

namespace Tds

theorem exec_fsExists (currentPath p : Path) (h : Host) :
    exec (fsExists currentPath p) h =
      (if p.native ≠ [] ∧ h.fs.tooLong (currentPath / p) = true then .error (.filesystem .enametoolong)
      else .ok (h.fs.resolveFrom currentPath p).isSome, h) := by
  rw [fsExists, exec_bind]
  show exec (if _ then _ else _) h = _
  split <;> rfl

theorem fsExists_meets {R : Host → Host → Prop} [IsPreorder Host R] (currentPath p : Path) (h : Host) :
    Meets R (fun t found => t = h ∧ found = (h.fs.resolveFrom currentPath p).isSome) (fsExists currentPath p) h := by
  have hexec := exec_fsExists currentPath p h
  constructor
  · rw [hexec]
    exact Std.Refl.refl h
  · intro found hfound
    rw [hexec] at hfound ⊢
    by_cases hlong : p.native ≠ [] ∧ h.fs.tooLong (currentPath / p) = true
    · simp only [if_pos hlong] at hfound
      cases hfound
    · simp only [if_neg hlong] at hfound
      cases hfound
      exact ⟨rfl, rfl⟩

theorem print_meets (text : Bytes) (h : Host) : Meets Host.Reads (fun _ _ => True) (print text) h :=
  ⟨⟨rfl, fun _ hl => hl⟩, fun _ _ => trivial⟩

theorem getline_meets (str : Bytes) (h : Host) :
    Meets Host.Reads (fun _ line => line = str ∨ h.terminal.Has line) (getline str) h := by
  obtain ⟨hline, hrest⟩ := h.terminal.getline_has str
  refine ⟨⟨rfl, hrest⟩, ?_⟩
  intro line hl
  cases hl
  exact hline

theorem readLine_meets (first again after : Bytes) (accepts : Bytes → Bool) (h : Host) :
    Meets Host.Reads (fun _ str => h.terminal.Has str ∧ accepts str = true) (readLine first again after accepts) h := by
  have hloop : Meets Host.Reads (fun t str => (Host.Reads h t ∧ h.terminal.Has str) ∧ accepts str = true)
      (readLine first again after accepts) h := by
    refine Meets.attempts (I := fun t str => Host.Reads h t ∧ h.terminal.Has str) ?_ maxTryCount 0 h [] ⟨Std.Refl.refl h, .inl rfl⟩
    rintro i t str ⟨hreads, hhas⟩
    apply (print_meets _ t).bind
    intro t₁ _ ht₁ _
    apply (getline_meets str t₁).bind
    intro t₂ line ht₂ hline
    apply (print_meets after t₂).bind
    intro t₃ _ ht₃ _
    apply Meets.pure
    refine ⟨hreads.trans (ht₁.trans (ht₂.trans ht₃)), ?_⟩
    rcases hline with rfl | hline
    · exact hhas
    · exact hreads.lines _ (ht₁.lines _ hline)
  exact hloop.imp fun _ str _ hstr => ⟨hstr.1.2, hstr.2⟩

end Tds

end TinDox
