import TinDox.Closing
import TinDox.ReplyTexts

/-! Which responses delimit themselves, over all runs of a connection. The interpreter hands on
lines without newlines, so the current directory and all texts of errors have none. -/

namespace TinDox

open Fallible

theorem Field.unbroken_boolean (name : Bytes) (b : Bool) : Field.Unbroken ⟨name, .boolean b⟩ := by
  intro s hs
  cases hs

theorem Field.unbroken_integer (name : Bytes) (m : Nat) : Field.Unbroken ⟨name, .integer m⟩ := by
  intro s hs
  cases hs

theorem Field.unbroken_string {name value : Bytes} (h : TinDox.Unbroken value) : Field.Unbroken ⟨name, .string value⟩ := by
  intro s hs
  rwa [← Option.some.inj hs]

theorem fieldFromString_meets {str : Bytes} (h : Unbroken str) :
    Meets (fun e : ProtocolError => Legible e.what) Field.Unbroken (fieldFromString str) := by
  have hfixed : ∀ {l : List Char} {c : Char}, l.all (fun c => c.toNat.toUInt8 ≠ newline) → l.head? = some c →
      c.toNat.toUInt8 ≠ 0 → Legible (protocolError .badField (ascii (String.ofList l))).what := by
    intro l c hl hc hne
    exact legible_what (by rw [ascii_ofList, List.head?_map, hc]; rfl) hne (unbroken_ascii hl)
  unfold fieldFromString
  dsimp only
  split
  · exact hfixed (by decide) rfl (by decide)
  · split
    · exact hfixed (by decide) rfl (by decide)
    · rename_i c afterSeparator hafter
      split
      · exact hfixed (by decide) rfl (by decide)
      · split
        · exact hfixed (by decide) rfl (by decide)
        · have hsub : (afterSeparator.dropWhile isBlank).rdropWhile isBlank ⊆ str := by
            have hsuffix : c :: afterSeparator <:+ str := by
              rw [← hafter]
              exact ((List.dropWhile_suffix _).trans (List.dropWhile_suffix _)).trans (List.dropWhile_suffix _)
            refine List.Subset.trans (List.rdropWhile_prefix _ _).subset ?_
            exact ((List.dropWhile_suffix _).trans ((List.suffix_cons c _).trans hsuffix)).subset
          generalize (afterSeparator.dropWhile isBlank).rdropWhile isBlank = fieldValue at hsub
          have hvalue : Unbroken fieldValue := h.of_subset hsub
          split
          · exact hfixed (by decide) rfl (by decide)
          · split
            · exact Field.unbroken_boolean _ true
            · split
              · exact Field.unbroken_boolean _ false
              · split
                · split
                  · exact Field.unbroken_integer _ _
                  · refine legible_what (c := 105) rfl (by decide) ?_
                    exact ((unbroken_ascii (by decide)).append hvalue).append (unbroken_ascii (by decide))
                · split
                  · refine Field.unbroken_string (hvalue.of_subset ?_)
                    exact List.Subset.trans (List.drop_subset 1 _) (List.dropLast_subset _)
                  · exact Field.unbroken_string hvalue

namespace ProtocolInterpreter

/-- What the interpreter keeps: lines without their separators, and no request that waits. -/
structure Unbroken (i : ProtocolInterpreter) : Prop where
  idle : i.request = none
  lines : ∀ l ∈ i.lines, TinDox.Unbroken l

theorem unbroken_fresh : Unbroken fresh := ⟨rfl, by simp [fresh]⟩

variable {i i' : ProtocolInterpreter} {line : Bytes}

theorem checkForProtocolErrors_cases (i : ProtocolInterpreter) :
    i.checkForProtocolErrors = (i, none) ∨
      ∃ e, (i.checkForProtocolErrors).2 = some (.protocol e) ∧ Legible e.what := by
  have hlast : ∀ i : ProtocolInterpreter, TinDox.Unbroken i.lastLineSize := by
    intro i
    unfold lastLineSize
    split
    · exact unbroken_decimal _
    · exact unbroken_nil
  unfold checkForProtocolErrors
  dsimp only
  split
  · refine .inr ⟨_, rfl, legible_what (c := 84) rfl (by decide) ?_⟩
    exact ((unbroken_ascii (by decide)).append (hlast _)).append (unbroken_ascii (by decide))
  · rename_i hlong
    split
    · refine .inr ⟨_, rfl, legible_what (c := 84) rfl (by decide) ?_⟩
      exact ((unbroken_ascii (by decide)).append (unbroken_decimal _)).append (unbroken_ascii (by decide))
    · rename_i hmany
      left
      rw [if_neg (not_or.mpr ⟨hlong, hmany⟩)]

theorem mapM_fieldFromString_meets {ls : List Bytes} (h : ∀ l ∈ ls, TinDox.Unbroken l) :
    Meets (fun e : ProtocolError => Legible e.what) (fun fields => ∀ f ∈ fields, Field.Unbroken f)
      (ls.mapM fieldFromString) := by
  induction ls with
  | nil => simp [pure, Except.pure]
  | cons l ls ih =>
    rw [List.mapM_cons]
    refine (fieldFromString_meets (h l (by simp))).bind fun f hf => ?_
    refine (ih fun l hl => h l (by simp [hl])).bind fun fields hfields => ?_
    intro g hg
    rcases List.mem_cons.mp hg with rfl | hg
    · exact hf
    · exact hfields g hg

/-- What a line that is committed leads to. -/
def Sound (result : ProtocolInterpreter × Option Exception) : Prop :=
  match result.2 with
  | some .fatal => True
  | some (.protocol e) => Legible e.what
  | none => (∀ l ∈ result.1.lines, TinDox.Unbroken l) ∧ ∀ r ∈ result.1.request, r.Unbroken

theorem commitRequest_sound (h : i.Unbroken) : Sound i.commitRequest := by
  unfold commitRequest
  rw [h.idle]
  simp only [Option.isSome_none, Bool.false_eq_true, if_false]
  cases hl : i.lines with
  | nil => trivial
  | cons name fieldLines =>
    have hlines : ∀ l ∈ name :: fieldLines, TinDox.Unbroken l := hl ▸ h.lines
    have hmeets := mapM_fieldFromString_meets fun l hm => hlines l (List.mem_cons_of_mem name hm)
    simp only
    cases hm : fieldLines.mapM fieldFromString with
    | error e =>
      rw [hm] at hmeets
      exact hmeets
    | ok fields =>
      rw [hm] at hmeets
      refine ⟨?_, ?_⟩
      · intro l hl
        rcases List.mem_cons.mp hl with rfl | hl
        · exact unbroken_nil
        · exact hlines l (List.mem_cons_of_mem name hl)
      · rintro r ⟨⟩
        exact ⟨hlines name (by simp), hmeets⟩

theorem getLastD_mem_or (ls : List Bytes) : ls.getLastD [] = [] ∨ ls.getLastD [] ∈ ls := by
  rcases List.eq_nil_or_concat ls with rfl | ⟨ls, l, rfl⟩
  · exact .inl rfl
  · right
    rw [List.concat_eq_append, List.getLastD_concat]
    simp

theorem unbroken_getLastD {ls : List Bytes} (h : ∀ l ∈ ls, TinDox.Unbroken l) :
    TinDox.Unbroken (ls.getLastD []) := by
  rcases getLastD_mem_or ls with hnil | hm
  · rw [hnil]
    exact unbroken_nil
  · exact h _ hm

/-- The line that is worked on has a newline at most as its last byte. -/
theorem worked_lines (h : ∀ l ∈ i.lines, TinDox.Unbroken l) (hline : TinDox.Unbroken line.dropLast) :
    ∃ before back,
      (if i.lastLineComplete then i.lines ++ [line] else i.lines.dropLast ++ [i.lines.getLastD [] ++ line]) =
        before ++ [back] ∧ (∀ l ∈ before, TinDox.Unbroken l) ∧ TinDox.Unbroken back.dropLast := by
  split
  · exact ⟨i.lines, line, rfl, h, hline⟩
  · refine ⟨i.lines.dropLast, _, rfl, fun l hl => h l (List.dropLast_subset _ hl), ?_⟩
    by_cases hempty : line = []
    · subst line
      rw [List.append_nil]
      exact (unbroken_getLastD h).of_subset (List.dropLast_subset _)
    · rw [List.dropLast_append_of_ne_nil hempty]
      exact (unbroken_getLastD h).append hline

theorem unbroken_cut {back : Bytes} (hback : TinDox.Unbroken back.dropLast) :
    TinDox.Unbroken (if back.getLast? = some newline then back.dropLast else back) := by
  split
  · exact hback
  · rename_i hne
    rcases List.eq_nil_or_concat back with rfl | ⟨b, c, rfl⟩
    · exact unbroken_nil
    · rw [List.concat_eq_append] at hne hback ⊢
      rw [List.dropLast_concat] at hback
      refine hback.append fun hm => hne ?_
      rw [List.getLast?_concat, ← List.mem_singleton.mp hm]

theorem commitLine_sound (h : i.Unbroken) (hline : TinDox.Unbroken line.dropLast) : Sound (i.commitLine line) := by
  obtain ⟨before, back, hlines, hbefore, hback⟩ := worked_lines h.lines hline
  unfold commitLine
  dsimp only
  rw [hlines]
  rcases checkForProtocolErrors_cases { i with lines := before ++ [back] } with hcheck | ⟨e, hcheck, he⟩
  · rw [hcheck]
    simp only [List.getLastD_concat, List.dropLast_concat, decide_eq_true_eq]
    have hall : ∀ l ∈ before ++ [if back.getLast? = some newline then back.dropLast else back], TinDox.Unbroken l := by
      intro l hl
      rcases List.mem_append.mp hl with hl | hl
      · exact hbefore l hl
      · rw [List.mem_singleton.mp hl]
        exact unbroken_cut hback
    have hidle : i.request = none := h.idle
    generalize (if back.getLast? = some newline then back.dropLast else back) = cut at hall ⊢
    split
    · split
      · have hrequest := commitRequest_sound (i := { i with
          lines := before, lastLineComplete := decide (back.getLast? = some newline) }) ⟨hidle, hbefore⟩
        split
        · rename_i i' e hc
          rw [hc] at hrequest
          exact hrequest
        · rename_i i' hc
          rw [hc] at hrequest
          exact ⟨by simp, hrequest.2⟩
      · exact ⟨by simp, by simp [hidle]⟩
    · exact ⟨hall, by simp [hidle]⟩
  · rcases hres : checkForProtocolErrors { i with lines := before ++ [back] } with ⟨i', r⟩
    rw [hres] at hcheck
    obtain rfl : r = some (.protocol e) := hcheck
    exact he

theorem commitBytesLoop_sound (fuel : Nat) (bytes : Bytes) (hlines : ∀ l ∈ i.lines, TinDox.Unbroken l)
    (hrequest : ∀ r ∈ i.request, r.Unbroken) :
    Sound ((commitBytesLoop fuel i bytes).1, (commitBytesLoop fuel i bytes).2.2) := by
  induction fuel generalizing i bytes with
  | zero => exact ⟨hlines, hrequest⟩
  | succ fuel ih =>
    rw [commitBytesLoop]
    split
    · exact ⟨hlines, hrequest⟩
    · rename_i hgo
      simp only [hasAvailableRequest, not_or, Bool.not_eq_true, Option.isSome_eq_false_iff, Option.isNone_iff_eq_none] at hgo
      have hpiece : TinDox.Unbroken (cutLine bytes).1.dropLast := by
        rcases Framing.cutLine_cases bytes with ⟨hnone, hcut⟩ | ⟨p, rest, hp, -, hcut⟩
        · rw [hcut]
          exact TinDox.Unbroken.of_subset hnone (List.dropLast_subset _)
        · rw [hcut, List.dropLast_concat]
          exact hp
      have hsound := commitLine_sound ⟨hgo.2, hlines⟩ hpiece
      split
      · rename_i i' e hc
        rw [hc] at hsound
        exact hsound
      · rename_i i' hc
        rw [hc] at hsound
        exact ih _ hsound.1 hsound.2

end ProtocolInterpreter

/-- What an interpreter delivers whose lines have no newlines. -/
def Delivery.Sound : Delivery → Prop
  | .nothing => True
  | .request r => r.Unbroken
  | .error .fatal => True
  | .error (.protocol e) => Legible e.what

theorem ProtocolInterpreter.takeRequest_sound {i : ProtocolInterpreter} (h : i.Unbroken) (bytes : Bytes) :
    (i.takeRequest bytes).2.2.Sound ∧
      ((i.takeRequest bytes).2.2 ≠ .error .fatal → (i.takeRequest bytes).1.Unbroken) := by
  have hsound := commitBytesLoop_sound bytes.length bytes h.lines (by simp [h.idle])
  change Sound ((i.commitBytes bytes).1, (i.commitBytes bytes).2.2) at hsound
  unfold takeRequest
  revert hsound
  rcases i.commitBytes bytes with ⟨i', rest, e⟩
  intro hsound
  rcases e with - | e | -
  · cases hr : i'.request with
    | none =>
      simp only [hr]
      exact ⟨trivial, fun _ => ⟨hr, hsound.1⟩⟩
    | some r =>
      simp only [hr]
      exact ⟨hsound.2 r hr, fun _ => unbroken_fresh⟩
  · exact ⟨hsound, fun _ => unbroken_fresh⟩
  · exact ⟨trivial, fun hne => absurd rfl hne⟩

variable {srv : ServerContext} {around : Surroundings} {fs : FileSystem} {s : Session} {r : Request}

/-- The requests whose answer does not delimit itself. The answer to an unknown command repeats its
name as it is, a user without permissions or with an empty name is told an empty line, a current
directory that is gone keeps its NULs, and the text about a path field is cut at its first byte. -/
inductive Irregular (srv : ServerContext) (fs : FileSystem) (c : ClientContext) (r : Request) : Prop
  | unknown (command : CommandName.ofBytes r.name = none) (nul : 0 ∈ r.name)
  | perms {token : AuthToken} (command : r.name = ascii "perms") (user : c.authToken = some token)
      (none : ∀ perm ∈ [Permissions.write, Permissions.copy, Permissions.move, Permissions.download,
        Permissions.upload], token.perms &&& perm = 0)
  | name {token : AuthToken} (command : r.name = ascii "name") (user : c.authToken = some token)
      (empty : token.username = [])
  | pwd {cur : Path} (command : r.name = ascii "pwd") (user : c.isAuthorized = true)
      (current : c.currentPathLock = some cur) (gone : fs.pathExists cur = false) (nul : ∃ n ∈ cur.key, 0 ∈ n)
  | path {n : CommandName} (command : CommandExecutor.setCommand c r.name = .ok n) (takes : n.takesPath = true)
      (hidden : HiddenFile srv fs c r.fields)

theorem parseFields_hidden {c : ClientContext} {fields : List Field} {n : CommandName} (hn : n.takesPath = true)
    (h : HiddenFile srv fs c fields) :
    ∃ e, CommandExecutor.parseFields srv fs c fields n = .error (.protocol e) ∧ e.what = [] := by
  obtain ⟨field, value, p, hfield, hvalue, hhead, hp, hthere, hdir⟩ := h
  obtain ⟨v, rfl⟩ : ∃ v, value = 0 :: v := by
    cases value with
    | nil => simp at hhead
    | cons d v => exact ⟨v, by simpa using hhead⟩
  let e : ProtocolError := protocolError .notADirectory (0 :: v ++ ascii " is not a directory")
  have hparse : PathBasedCommand.parseFields srv fs c fields = .error (.protocol e) := by
    simp only [PathBasedCommand.parseFields, hfield, PathBasedCommand.parsePath, hvalue, hp]
    simp [bind, Except.bind, hthere, hdir, Except.map, refuseWith, e]
  refine ⟨e, ?_, rfl⟩
  cases n with
  | cd => simp [CommandExecutor.parseFields, Cd.parseFields, hparse, bind, Except.bind]
  | cp | mv => simp [CommandExecutor.parseFields, TransportCommand.parseFields, hparse, bind, Except.bind, Except.map]
  | ls => simp [CommandExecutor.parseFields, Ls.parseFields, hparse, bind, Except.bind]
  | tree => simp [CommandExecutor.parseFields, hparse, Except.map]
  | _ => simp [CommandName.takesPath] at hn

theorem toBytes_eq_nil_iff (perms : Permissions) :
    perms.toBytes = [] ↔ ∀ perm ∈ [Permissions.write, Permissions.copy, Permissions.move, Permissions.download,
      Permissions.upload], perms &&& perm = 0 := by
  simp only [Permissions.toBytes, List.filterMap_eq_nil_iff, List.forall_mem_cons, ite_eq_right_iff, reduceCtorEq,
    ne_eq, imp_false, not_not]
  simp

theorem toBytes_clean (perms : Permissions) : Unbroken perms.toBytes ∧ (0 : Byte) ∉ perms.toBytes := by
  have hletter : ∀ c ∈ perms.toBytes, c ∈ ([119, 99, 109, 100, 117] : Bytes) := by
    intro c hc
    obtain ⟨e, he, hs⟩ := List.mem_filterMap.mp hc
    split at hs
    · rw [← Option.some.inj hs]
      exact List.mem_map.mpr ⟨e, he, rfl⟩
    · cases hs
  exact ⟨fun hm => absurd (hletter _ hm) (by decide), fun hm => absurd (hletter _ hm) (by decide)⟩

/-- What the answers of a session rely on. -/
structure Session.Unbroken (srv : ServerContext) (s : Session) : Prop where
  context : s.context.Unbroken srv
  user : ∀ token ∈ s.context.authToken, TinDox.Unbroken token.username ∧ (0 : Byte) ∉ token.username

/-- An answer repeats the name of its request, no line of it has a newline, and it is legible but
for the irregular requests. -/
structure Told (srv : ServerContext) (fs : FileSystem) (c : ClientContext) (r : Request) (a : Answer) : Prop where
  commandName : a.commandName = r.name
  unbroken : ∀ l ∈ a.lines, TinDox.Unbroken l
  legible : ((0 : Byte) ∉ r.name ∧ ∀ l ∈ a.lines, l ≠ [] ∧ (0 : Byte) ∉ l) ↔ ¬ Irregular srv fs c r

theorem Told.of_legible {c : ClientContext} {a : Answer} (hname : a.commandName = r.name) (hnul : (0 : Byte) ∉ r.name)
    (hlines : ∀ l ∈ a.lines, Legible l) (h : ¬ Irregular srv fs c r) : Told srv fs c r a where
  commandName := hname
  unbroken l hl := (hlines l hl).2.1
  legible := iff_of_true ⟨hnul, fun l hl => ⟨(hlines l hl).1, (hlines l hl).2.2⟩⟩ h

theorem Told.single {c : ClientContext} {a : Answer} {l : Bytes} (hname : a.commandName = r.name)
    (hnul : (0 : Byte) ∉ r.name) (hlines : a.lines = [l]) (hl : Unbroken l)
    (h : (l ≠ [] ∧ (0 : Byte) ∉ l) ↔ ¬ Irregular srv fs c r) : Told srv fs c r a where
  commandName := hname
  unbroken m hm := by
    rw [hlines, List.mem_singleton] at hm
    exact hm ▸ hl
  legible := by
    rw [← h, hlines]
    simp [hnul]

theorem CommandName.toBytes_noNul (n : CommandName) : (0 : Byte) ∉ n.toBytes := by
  cases n <;> decide

theorem CommandName.ofBytes_toBytes (n : CommandName) : ofBytes n.toBytes = some n := by
  cases n <;> decide

theorem irregular_iff {c : ClientContext} {n : CommandName} (hset : CommandExecutor.setCommand c r.name = .ok n) :
    Irregular srv fs c r ↔
      (n = .perms ∧ ∃ token, c.authToken = some token ∧ token.perms.toBytes = []) ∨
      (n = .name ∧ ∃ token, c.authToken = some token ∧ token.username = []) ∨
      (n = .pwd ∧ c.isAuthorized = true ∧ ∃ cur, c.currentPathLock = some cur ∧ fs.pathExists cur = false ∧
        ∃ n ∈ cur.key, 0 ∈ n) ∨
      (n.takesPath = true ∧ HiddenFile srv fs c r.fields) := by
  have hbytes := (CommandExecutor.setCommand_ok hset).1
  have hname : ∀ m : CommandName, r.name = m.toBytes → n = m := by
    intro m hm
    have hsame := n.ofBytes_toBytes
    rw [← hbytes, hm, m.ofBytes_toBytes] at hsame
    exact (Option.some.inj hsame).symm
  constructor
  · rintro (⟨hunknown, -⟩ | ⟨hcommand, htoken, hnone⟩ | ⟨hcommand, htoken, hempty⟩ | ⟨hcommand, hauth, hcur, hgone, hnul⟩ |
      ⟨hcommand, htakes, hhidden⟩)
    · rw [CommandExecutor.setCommand, hunknown] at hset
      cases hset
    · exact .inl ⟨hname .perms hcommand, _, htoken, (toBytes_eq_nil_iff _).mpr hnone⟩
    · exact .inr (.inl ⟨hname .name hcommand, _, htoken, hempty⟩)
    · exact .inr (.inr (.inl ⟨hname .pwd hcommand, hauth, _, hcur, hgone, hnul⟩))
    · obtain rfl := Except.ok.inj (hset.symm.trans hcommand)
      exact .inr (.inr (.inr ⟨htakes, hhidden⟩))
  · rintro (⟨rfl, token, htoken, hnone⟩ | ⟨rfl, token, htoken, hempty⟩ | ⟨rfl, hauth, cur, hcur, hgone, hnul⟩ |
      ⟨htakes, hhidden⟩)
    · exact .perms hbytes htoken ((toBytes_eq_nil_iff _).mp hnone)
    · exact .name hbytes htoken hempty
    · exact .pwd hbytes hauth hcur hgone hnul
    · exact .path hset htakes hhidden

theorem setCommand_speaks (srv : ServerContext) (fs : FileSystem) {c : ClientContext} {e : Exception} (hr : Unbroken r.name)
    (h : CommandExecutor.setCommand c r.name = .error e) :
    Speaks False e ∧ ((0 : Byte) ∉ r.name ↔ ¬ Irregular srv fs c r) := by
  cases hn : CommandName.ofBytes r.name with
  | none =>
    simp only [CommandExecutor.setCommand, hn, Except.error.injEq] at h
    subst h
    refine ⟨speaks_refuseWith (c := 78) rfl (by decide) (((unbroken_ascii (by decide)).append
      (hr.of_subset (List.takeWhile_subset _))).append (unbroken_ascii (by decide))), ?_⟩
    constructor
    · rintro hnul (⟨-, hzero⟩ | ⟨hcommand, -, -⟩ | ⟨hcommand, -, -⟩ | ⟨hcommand, -, -, -, -⟩ | ⟨hcommand, -, -⟩)
      · exact hnul hzero
      · rw [hcommand] at hn
        exact absurd hn (by decide)
      · rw [hcommand] at hn
        exact absurd hn (by decide)
      · rw [hcommand] at hn
        exact absurd hn (by decide)
      · rw [CommandExecutor.setCommand, hn] at hcommand
        cases hcommand
    · exact fun hregular hzero => hregular (.unknown hn hzero)
  | some n =>
    have hspeaks : Speaks False e := by
      simp only [CommandExecutor.setCommand, hn] at h
      split at h
      · cases h
        exact speaks_refuse _
      · split at h
        · cases h
        · split at h
          · cases h
            exact speaks_refuse _
          · cases h
    refine ⟨hspeaks, iff_of_true ?_ ?_⟩
    · rw [CommandName.ofBytes_eq hn]
      exact n.toBytes_noNul
    · -- the three commands with a line of the session need no permission
      have hset : ∀ {m : CommandName}, r.name = m.toBytes → m.requiredPerms = 0 → c.isAuthorized = true →
          CommandExecutor.setCommand c r.name = .ok m := by
        intro m hm hperms hauth
        obtain ⟨token, ht⟩ := Option.isSome_iff_exists.mp hauth
        simp [CommandExecutor.setCommand, hm, m.ofBytes_toBytes, ht, hperms, hauth]
      rintro (⟨hunknown, -⟩ | ⟨hcommand, htoken, -⟩ | ⟨hcommand, htoken, -⟩ | ⟨hcommand, hauth, -, -, -⟩ | ⟨hcommand, -, -⟩)
      · rw [hn] at hunknown
        cases hunknown
      · rw [hset (m := .perms) hcommand rfl (by simp [ClientContext.isAuthorized, htoken])] at h
        cases h
      · rw [hset (m := .name) hcommand rfl (by simp [ClientContext.isAuthorized, htoken])] at h
        cases h
      · rw [hset (m := .pwd) hcommand rfl hauth] at h
        cases h
      · rw [hcommand] at h
        cases h

theorem told_session {n : CommandName} {command : Command} {l : Bytes} {a : Answer} (hm : s.context.mode = .command)
    (hset : CommandExecutor.setCommand s.context r.name = .ok n)
    (hparse : CommandExecutor.parseFields srv fs s.context r.fields n = .ok command)
    (hx : CommandExecutor.execute srv around ⟨fs, s.context⟩ command = (⟨fs, s.context⟩, .ok [l])) (hl : Unbroken l)
    (h : (l ≠ [] ∧ (0 : Byte) ∉ l) ↔ ¬ Irregular srv fs s.context r)
    (ha : (s.executeCommand srv around fs r).answer = some a) : Told srv fs s.context r a := by
  rw [Session.executeCommand_answered hset hparse hx hm] at ha
  obtain rfl := Option.some.inj ha
  refine .single rfl ?_ rfl hl h
  rw [(CommandExecutor.setCommand_ok hset).1]
  exact n.toBytes_noNul

theorem accepted_answer {answer a : Answer} (h : (Session.accepted srv fs s answer).answer = some a) : a = answer := by
  unfold Session.accepted at h
  split at h
  · simp at h
  · rw [Session.startUpload_answer] at h
    exact (Option.some.inj h).symm
  · exact (Option.some.inj h).symm

theorem told_command {command : Command} {a : Answer} (hs : s.Unbroken srv) (hnamed : Named around fs)
    (hset : CommandExecutor.setCommand s.context r.name = .ok command.commandName)
    (hparse : CommandExecutor.parseFields srv fs s.context r.fields command.commandName = .ok command)
    (hcommand : command.Unbroken fs) (hname : command ≠ .name) (hperms : command ≠ .perms) (hpwd : command ≠ .pwd)
    (ha : (s.executeCommand srv around fs r).answer = some a) : Told srv fs s.context r a := by
  have hnul : (0 : Byte) ∉ r.name := by
    rw [(CommandExecutor.setCommand_ok hset).1]
    exact command.commandName.toBytes_noNul
  have hregular : ¬ Irregular srv fs s.context r := by
    rw [irregular_iff hset]
    rintro (⟨hn, -⟩ | ⟨hn, -⟩ | ⟨hn, -⟩ | ⟨htakes, hhidden⟩)
    · cases command <;> simp_all [Command.commandName]
    · cases command <;> simp_all [Command.commandName]
    · cases command <;> simp_all [Command.commandName]
    · obtain ⟨e, hrefused, -⟩ := parseFields_hidden htakes hhidden
      rw [hparse] at hrefused
      cases hrefused
  have hanswers : Answers (CommandExecutor.execute srv around ⟨fs, s.context⟩ command) :=
    CommandExecutor.execute_answers hs.context hcommand hnamed hname hperms hpwd
  rcases hx : CommandExecutor.execute srv around ⟨fs, s.context⟩ command with ⟨w, e | lines⟩
  · rw [Answers, hx] at hanswers
    rw [Session.executeCommand_throws hset hparse hx] at ha
    cases e with
    | fatal => cases ha
    | protocol e =>
      obtain rfl := Option.some.inj ha
      have hlegible : Legible e.what := hanswers.resolve_right (fun hh => hh.1)
      exact .of_legible rfl hnul (by simpa using hlegible) hregular
  · rw [Answers, hx] at hanswers
    rw [Session.executeCommand_executed hset hparse hx] at ha
    obtain rfl := accepted_answer ha
    exact .of_legible rfl hnul hanswers hregular

theorem told_stopped {e : Exception} {a : Answer} (hr : r.Unbroken)
    (hset : CommandExecutor.setCommand s.context r.name = .error e)
    (ha : (s.executeCommand srv around fs r).answer = some a) : Told srv fs s.context r a := by
  obtain ⟨hspeaks, hiff⟩ := setCommand_speaks srv fs hr.1 hset
  rw [Session.executeCommand_stopped hset] at ha
  cases e with
  | fatal => cases ha
  | protocol e =>
    obtain rfl := Option.some.inj ha
    have hlegible : Legible e.what := hspeaks.resolve_right (fun hh => hh.1)
    refine ⟨rfl, by simpa using hlegible.2.1, ?_⟩
    rw [← hiff]
    simp [hlegible.1, hlegible.2.2]

theorem name_noNul {n : CommandName} (hset : CommandExecutor.setCommand s.context r.name = .ok n) : (0 : Byte) ∉ r.name := by
  rw [(CommandExecutor.setCommand_ok hset).1]
  exact n.toBytes_noNul

theorem told_unparsed {n : CommandName} {e : Exception} {a : Answer} (hs : s.Unbroken srv) (hr : r.Unbroken)
    (hset : CommandExecutor.setCommand s.context r.name = .ok n)
    (hparse : CommandExecutor.parseFields srv fs s.context r.fields n = .error e)
    (ha : (s.executeCommand srv around fs r).answer = some a) : Told srv fs s.context r a := by
  have hparses : Meets _ _ (CommandExecutor.parseFields srv fs s.context r.fields n) :=
    CommandExecutor.parseFields_meets hr.2 hs.context n
  rw [hparse] at hparses
  rw [Session.executeCommand_unparsed hset hparse] at ha
  have hplain : n ≠ .name ∧ n ≠ .perms ∧ n ≠ .pwd := by
    refine ⟨?_, ?_, ?_⟩ <;> rintro rfl <;> cases hparse
  cases e with
  | fatal => cases ha
  | protocol e =>
    obtain rfl := Option.some.inj ha
    rcases hparses with hlegible | ⟨⟨htakes, hhidden⟩, hempty⟩
    · refine .of_legible rfl (name_noNul hset) (by simpa using hlegible) ?_
      rw [irregular_iff hset]
      rintro (⟨hn, -⟩ | ⟨hn, -⟩ | ⟨hn, -⟩ | ⟨htakes, hhidden⟩)
      · exact hplain.2.1 hn
      · exact hplain.1 hn
      · exact hplain.2.2 hn
      · obtain ⟨e', hparse', hempty⟩ := parseFields_hidden htakes hhidden
        rw [hparse] at hparse'
        cases hparse'
        exact hlegible.1 hempty
    · refine .single rfl (name_noNul hset) rfl (by simp [hempty, Unbroken]) (iff_of_false ?_ ?_)
      · exact fun hh => hh.1 hempty
      · exact fun hregular => hregular (.path hset htakes hhidden)

/-- The names of a current directory that exists are names of entries. -/
theorem nul_mem_canonicalKey (fs : FileSystem) (cur : Path) :
    (∃ n ∈ cur.canonicalKey fs, (0 : Byte) ∈ n) ↔ fs.pathExists cur = false ∧ ∃ n ∈ cur.key, (0 : Byte) ∈ n := by
  unfold Path.canonicalKey
  cases fs.pathExists cur with
  | true =>
    have hnone : ¬ ∃ n ∈ cur.cString.key, (0 : Byte) ∈ n := by
      rintro ⟨n, hn, hz⟩
      exact cur.noNul_key_cString n hn hz
    simpa using hnone
  | false => simp

theorem told_pwd {a : Answer} (hm : s.context.mode = .command) (hs : s.Unbroken srv)
    (hset : CommandExecutor.setCommand s.context r.name = .ok .pwd)
    (hparse : CommandExecutor.parseFields srv fs s.context r.fields .pwd = .ok .pwd)
    (ha : (s.executeCommand srv around fs r).answer = some a) : Told srv fs s.context r a := by
  obtain ⟨token, ht⟩ := Option.isSome_iff_exists.mp ((CommandExecutor.setCommand_ok hset).2 rfl)
  cases hcur : s.context.currentPathLock with
  | none =>
    have hx : CommandExecutor.execute srv around ⟨fs, s.context⟩ .pwd = (⟨fs, s.context⟩, .error .fatal) := by
      simp [CommandExecutor.execute, hcur]
    rw [Session.executeCommand_throws hset hparse hx] at ha
    cases ha
  | some cur =>
    obtain ⟨hcurrent, habs⟩ := hs.context.current cur hcur
    refine told_session (l := (srv.getRelativePathTo fs cur).native) hm hset hparse
      (by simp [CommandExecutor.execute, hcur]) (hs.context.relative habs hcurrent) ?_ ha
    rw [irregular_iff hset, ServerContext.mem_getRelativePathTo habs (by decide) (by decide) srv.root.noNul,
      nul_mem_canonicalKey]
    have hne := srv.getRelativePathTo_ne_nil fs cur
    simp [CommandName.takesPath, ht, hcur, hne, ClientContext.isAuthorized]

theorem executeCommand_told (hm : s.context.mode = .command) (hs : s.Unbroken srv) (hr : r.Unbroken) (hnamed : Named around fs)
    {a : Answer} (ha : (s.executeCommand srv around fs r).answer = some a) : Told srv fs s.context r a := by
  cases hset : CommandExecutor.setCommand s.context r.name with
  | error e => exact told_stopped hr hset ha
  | ok n =>
    cases hparse : CommandExecutor.parseFields srv fs s.context r.fields n with
    | error e => exact told_unparsed hs hr hset hparse ha
    | ok command =>
      have hparses : Meets _ _ (CommandExecutor.parseFields srv fs s.context r.fields n) :=
        CommandExecutor.parseFields_meets hr.2 hs.context n
      rw [hparse] at hparses
      obtain rfl := CommandExecutor.parseFields_commandName hparse
      have hauth : command.commandName.requiresAuthorization = true → ∃ token, s.context.authToken = some token :=
        fun hreq => Option.isSome_iff_exists.mp ((CommandExecutor.setCommand_ok hset).2 hreq)
      cases command with
      | name =>
        obtain ⟨token, ht⟩ := hauth rfl
        obtain ⟨huser, husernul⟩ := hs.user token ht
        refine told_session hm hset hparse (by simp [CommandExecutor.execute, ht]) huser ?_ ha
        rw [irregular_iff hset]
        simp [Command.commandName, CommandName.takesPath, ht, husernul]
      | perms =>
        obtain ⟨token, ht⟩ := hauth rfl
        obtain ⟨huser, husernul⟩ := toBytes_clean token.perms
        refine told_session hm hset hparse (by simp [CommandExecutor.execute, ht]) huser ?_ ha
        rw [irregular_iff hset]
        simp [Command.commandName, CommandName.takesPath, ht, husernul]
      | pwd => exact told_pwd hm hs hset hparse ha
      | _ => exact told_command hs hnamed hset hparse hparses (by simp) (by simp) (by simp) ha

theorem isUsernameOk_clean {username : Bytes} (h : UserTable.isUsernameOk username = true) :
    Unbroken username ∧ (0 : Byte) ∉ username := by
  simp only [UserTable.isUsernameOk, Bool.and_eq_true, List.all_eq_true] at h
  exact ⟨fun hm => absurd (h.2 _ hm) (by decide), fun hm => absurd (h.2 _ hm) (by decide)⟩

theorem authorizeUser_clean {username password : Bytes} {token : AuthToken}
    (h : srv.authorizeUser around username password = .ok token) :
    Unbroken token.username ∧ (0 : Byte) ∉ token.username := by
  unfold ServerContext.authorizeUser at h
  split at h
  · cases h
  · rename_i u hu
    split at h
    · cases h
    · split at h
      · cases h
      · obtain rfl := Except.ok.inj h
        have hname : u.name = username := by simpa using List.find?_some hu
        have hok := srv.usernamesOk u (List.mem_of_find?_eq_some hu)
        exact hname ▸ isUsernameOk_clean hok

theorem Effect.unbroken {fs' : FileSystem} {s' : Session} (h : Effect srv around fs s r fs' s') (hs : s.Unbroken srv)
    (hr : r.Unbroken) : s'.Unbroken srv := by
  cases h with
  | none | flags | cp | mkdir | mv | rename | rm | dl | dls | unbacked | ul =>
    exact ⟨⟨hs.context.root, hs.context.current⟩, hs.user⟩
  | logout => exact ⟨⟨hs.context.root, hs.context.current⟩, by simp [Session.withContext, ClientContext.logout]⟩
  | @login token lock _ authorized locked =>
    obtain ⟨username, password, hauth⟩ := authorized
    refine ⟨⟨hs.context.root, ?_⟩, ?_⟩
    · rcases locked with rfl | ⟨rfl, -⟩
      · exact hs.context.current
      · rintro cur ⟨⟩
        exact ⟨hs.context.root, Path.isAbsolute_ofKey _⟩
    · rintro _ ⟨⟩
      exact authorizeUser_clean hauth
  | @cd path command parsed =>
    have hparses : Meets _ _ (PathBasedCommand.parseFields srv fs s.context r.fields) :=
      PathBasedCommand.parseFields_meets hs.context hr.2
    rw [parsed] at hparses
    refine ⟨⟨hs.context.root, ?_⟩, hs.user⟩
    rintro cur ⟨⟩
    have htaken := hparses path rfl
    exact ⟨htaken.unbroken, htaken.absolute⟩

/-- What a client keeps between its calls. -/
structure Client.Unbroken (srv : ServerContext) (c : Client) : Prop where
  interpreter : c.interpreter.Unbroken
  session : c.session.Unbroken srv

namespace Client

variable {others : Surroundings} {c : Client} {input rest : Bytes} {h : Handling}

theorem Unbroken.withMode (hc : c.Unbroken srv) {s : Session} (hs : ∃ mode d u, s = ⟨c.session.context.setMode mode, d, u⟩) :
    Unbroken srv { c with session := s } := by
  obtain ⟨mode, d, u, rfl⟩ := hs
  exact ⟨hc.interpreter, ⟨hc.session.context.root, hc.session.context.current⟩, hc.session.user⟩

theorem handleOnce_unbroken (hc : c.Unbroken srv) (he : handleOnce srv others fs c input = (h, rest))
    (hf : h.fatal = false) : h.client.Unbroken srv := by
  cases handleOnce_iterates he with
  | download mode => exact ⟨hc.interpreter, hc.session⟩
  | upload mode handled =>
    obtain ⟨-, mode', rfl⟩ := Session.handleUpload_cases handled
    exact hc.withMode ⟨mode', _, _, rfl⟩
  | uploadThrows mode handled | interpreterThrows mode taken => cases hf
  | waits mode taken | refuses mode taken =>
    obtain ⟨-, hnext⟩ := ProtocolInterpreter.takeRequest_sound hc.interpreter input
    rw [taken] at hnext
    exact ⟨hnext (by simp), hc.session⟩
  | @executes i rest r mode taken =>
    obtain ⟨hsound, hnext⟩ := ProtocolInterpreter.takeRequest_sound hc.interpreter input
    rw [taken] at hsound hnext
    have heffect := executeCommand_effect srv (surroundings others c.session) fs c.session r mode
    exact ⟨hnext (by simp), heffect.unbroken hc.session hsound⟩

theorem handleOnce_command_trace (hm : c.session.context.mode = .command) :
    (handleOnce srv others fs c input).1.trace = [⟨fs, c.session, input, (c.interpreter.takeRequest input).2.1,
      (c.interpreter.takeRequest input).2.2⟩] := by
  simp only [handleOnce, hm, handleRequest]
  rcases c.interpreter.takeRequest input with ⟨i, rest, d⟩
  cases d with
  | nothing => rfl
  | request r => rfl
  | error e => cases e <;> rfl

theorem handleOutput_unbroken (hc : c.Unbroken srv) (events : SocketEvents) : (handleOutput fs c events).1.Unbroken srv := by
  rcases ho : handleOutput fs c events with ⟨c', e⟩
  cases handleOutput_outputs ho with
  | writes waiting => exact ⟨hc.interpreter, hc.session⟩
  | idle none mode => exact hc
  | sends none mode handled | sendThrows none mode handled =>
    obtain ⟨mode', rfl⟩ := Session.handleDownloadManagerOutput_cases handled
    exact hc.withMode ⟨mode', _, _, rfl⟩

end Client

namespace Connection

variable {x : Connection} {call : Call}

theorem Head.unbroken {l : Loop} (h : Head srv x call l) (hx : x.client.Unbroken srv) : l.client.Unbroken srv := by
  obtain ⟨-, input, -, hreach⟩ := h
  exact hreach.invariant (I := fun l => l.client.Unbroken srv) hx
    fun l h rest hl honce hf => Client.handleOnce_unbroken hl honce hf

theorem step_unbroken (hx : x.client.Unbroken srv) (hr : x.client.Ready)
    (halive : (step srv x call).client.isAlive = true) :
    (step srv x call).client.Unbroken srv ∧ (step srv x call).client.Ready := by
  by_cases hxalive : x.client.isAlive = true
  · simp only [step, hxalive, if_true] at halive ⊢
    obtain ⟨hf, -, hout⟩ := Client.handle_ok (Client.handle_alive halive)
    have hevents : (x.client.handleEvents srv call.others call.fs call.events).client.Unbroken srv ∧
        (x.client.handleEvents srv call.others call.fs call.events).client.Ready := by
      rcases Client.handleEvents_ends x.trace hr with
        ⟨-, -, hclient, -⟩ | ⟨input, l, h, rest, hinput, hreach, honce, -, -, -, hfatal, pending, hclient⟩
      · rw [hclient]
        exact ⟨hx, hr⟩
      · have hl := Head.unbroken ⟨hxalive, input, hinput, hreach⟩ hx
        rw [hfatal] at hf
        have hlast := Client.handleOnce_unbroken hl honce hf
        have hready := (Client.handleOnce_advances (hreach.ready hr) honce hf).ready
        rw [hclient]
        exact ⟨⟨hlast.interpreter, hlast.session⟩, ⟨hready.idle, hready.bounded⟩⟩
    rcases hout with hout | ⟨-, hout⟩
    · rw [hout]
      exact hevents
    · rw [hout]
      exact ⟨Client.handleOutput_unbroken hevents.1 _, (Client.handleOutput_keeps _ _ _).2 hevents.2⟩
  · simp only [step, hxalive, Bool.false_eq_true, if_false]
    exact ⟨hx, hr⟩

theorem unbroken_of_reaches (hroot : Unbroken srv.root.path.native)
    (h : Runs.Reaches (step srv) (fun _ _ => True) (start fs) x) (halive : x.client.isAlive = true) :
    x.client.Unbroken srv := by
  have hnew : Client.Unbroken srv Client.new :=
    ⟨ProtocolInterpreter.unbroken_fresh, ⟨⟨hroot, fun cur hcur => by cases hcur⟩, fun token ht => by cases ht⟩⟩
  have hinv : x.client.isAlive = true → x.client.Unbroken srv ∧ x.client.Ready := by
    refine h.invariant (I := fun x => x.client.isAlive = true → x.client.Unbroken srv ∧ x.client.Ready)
      (fun _ => ⟨hnew, Client.ready_new⟩) (fun y call ih _ hy => ?_)
    by_cases hyalive : y.client.isAlive = true
    · obtain ⟨hc, hr⟩ := ih hyalive
      exact step_unbroken hc hr hy
    · simp [step, hyalive] at hy
  exact (hinv halive).1

end Connection

def Iteration.Irregular (srv : ServerContext) (it : Iteration) : Prop :=
  ∃ r, it.delivery = .request r ∧ TinDox.Irregular srv it.fs it.session.context r

namespace Connection

variable {x : Connection} {call : Call}

/-- Each reply that an iteration of the input loop gives, in any run, delimits itself exactly when
its request is not one of the irregular ones. -/
theorem reply_selfDelimiting_iff (hroot : Unbroken srv.root.path.native)
    (h : Runs.Reaches (step srv) (fun _ _ => True) (start fs) x) {l : Loop} (hl : Head srv x call l)
    (hnamed : Named call.others l.fs) {it : Iteration}
    (hit : it ∈ (l.client.handleOnce srv call.others l.fs l.input).1.trace) {response : Response}
    (hreply : it.reply srv call.others = some response) :
    SelfDelimiting response.data ↔ ¬ it.Irregular srv := by
  have hclient := hl.unbroken (unbroken_of_reaches hroot h hl.1)
  have hsound := (ProtocolInterpreter.takeRequest_sound hclient.interpreter l.input).1
  rcases ht : l.client.interpreter.takeRequest l.input with ⟨i, rest, d⟩
  rw [ht] at hsound
  obtain ⟨hm, rfl⟩ : l.client.session.context.mode = .command ∧ it = ⟨l.fs, l.client.session, l.input, rest, d⟩ := by
    cases hm : l.client.session.context.mode with
    | command =>
      rw [Client.handleOnce_command_trace hm, ht] at hit
      exact ⟨rfl, List.mem_singleton.mp hit⟩
    | upload =>
      simp only [Client.handleOnce, hm, Client.handleUpload] at hit
      rcases hu : l.client.session.handleUpload l.fs l.input with ⟨fs', s, e | rest'⟩
      all_goals
        simp only [hu, List.mem_singleton] at hit
        subst hit
        cases hreply
    | download =>
      simp only [Client.handleOnce, hm, List.mem_singleton] at hit
      subst hit
      cases hreply
  cases d with
  | nothing => cases hreply
  | error e =>
    cases e with
    | fatal => cases hreply
    | protocol e =>
      obtain rfl := Option.some.inj hreply
      have hlegible : Legible e.what := hsound
      have hname : newline ∉ ascii "<interpreter>" ∧ (0 : Byte) ∉ ascii "<interpreter>" := by decide
      refine iff_of_true ?_ ?_
      · exact (selfDelimiting_response_iff hname.1 (List.forall_mem_singleton.mpr hlegible.2.1)).mpr
          ⟨hname.2, List.forall_mem_singleton.mpr ⟨hlegible.1, hlegible.2.2⟩⟩
      · rintro ⟨r, hr, -⟩
        cases hr
  | request r =>
    obtain ⟨a, ha, rfl⟩ := Option.map_eq_some_iff.mp hreply
    have hnamed' : Named (Client.surroundings call.others l.client.session) l.fs := ⟨hnamed.names, hnamed.times⟩
    have htold := executeCommand_told hm hclient.session hsound hnamed' ha
    have hname : newline ∉ a.commandName := htold.commandName ▸ hsound.1
    rw [Answer.response, selfDelimiting_response_iff hname htold.unbroken, htold.commandName, htold.legible]
    constructor
    · rintro hregular ⟨r', hr', hirregular⟩
      cases hr'
      exact hregular hirregular
    · exact fun hregular hirregular => hregular ⟨r, rfl, hirregular⟩

end Connection

theorem named_of_tree {fs : FileSystem} (h : ∀ e ∈ fs.tree, ∀ n ∈ e.1, Unbroken n ∧ (0 : Byte) ∉ n)
    (htimes : ∀ p, Unbroken (around.lastWriteTime p) ∧ (0 : Byte) ∉ around.lastWriteTime p) : Named around fs where
  names p n hn := by
    unfold FileSystem.entries at hn
    split at hn
    · obtain ⟨e, he, hlast⟩ := List.mem_filterMap.mp hn
      split at hlast
      · exact h e he n (List.mem_of_getLast? hlast)
      · cases hlast
    · simp at hn
  times := htimes

namespace Sample

/-- A server with one user, who has no permissions. -/
def restricted : ServerContext := { server with users := [⟨ascii "u", ascii "pw", 0⟩], usernamesOk := by decide }

def loginText : String := "auth\nlogin:u\npasswd:pw\n\n"

def asking (srv : ServerContext) : Connection :=
  Runs.run (Connection.step srv) (.start ⟨tree [], []⟩) [call ⟨tree [], []⟩ (some loginText) [100]]

theorem named : Named Sample.around ⟨tree [], []⟩ := by
  refine named_of_tree ?_ (fun p => by simp [Sample.around, Unbroken])
  unfold Unbroken
  decide

def asked (srv : ServerContext) (text : String) : Loop :=
  ⟨⟨tree [], []⟩, (asking srv).client, ascii text, (asking srv).trace⟩

def answering (srv : ServerContext) (text : String) : Iteration :=
  ⟨⟨tree [], []⟩, (asking srv).client.session, ascii text, ((asking srv).client.interpreter.takeRequest (ascii text)).2.1,
    ((asking srv).client.interpreter.takeRequest (ascii text)).2.2⟩

end Sample

namespace Connection

theorem asked_head {text : String} (h : (Sample.asking srv).client.isAlive = true)
    (hp : (Sample.asking srv).client.pendingInput = []) :
    Head srv (Sample.asking srv) (Sample.call ⟨Sample.tree [], []⟩ (some text) []) (Sample.asked srv text) :=
  ⟨h, ascii text, by simp [Client.callInput, hp, Sample.call], .refl⟩

theorem answering_mem {text : String} {others : Surroundings} (hm : (Sample.asking srv).client.session.context.mode = .command) :
    Sample.answering srv text ∈
      ((Sample.asked srv text).client.handleOnce srv others (Sample.asked srv text).fs (Sample.asked srv text).input).1.trace := by
  have htrace : ((Sample.asked srv text).client.handleOnce srv others (Sample.asked srv text).fs
      (Sample.asked srv text).input).1.trace = [Sample.answering srv text] := Client.handleOnce_command_trace hm
  rw [htrace]
  exact List.mem_singleton.mpr rfl

theorem asking_reaches (srv : ServerContext) :
    Runs.Reaches (step srv) (fun _ _ => True) (start ⟨Sample.tree [], []⟩) (Sample.asking srv) :=
  Runs.AllMeet.reaches ⟨trivial, trivial⟩

theorem reply_selfDelimiting_iff_pwd :
    (Sample.answering Sample.server "pwd\n\n").reply Sample.server Sample.around = some ⟨ascii "100 pwd\n/\n\n", 0⟩ ∧
      (SelfDelimiting (ascii "100 pwd\n/\n\n") ↔ ¬ (Sample.answering Sample.server "pwd\n\n").Irregular Sample.server) := by
  have hreply : (Sample.answering Sample.server "pwd\n\n").reply Sample.server Sample.around =
      some ⟨ascii "100 pwd\n/\n\n", 0⟩ := by decide +kernel
  exact ⟨hreply, reply_selfDelimiting_iff (by unfold Unbroken; decide) (asking_reaches Sample.server)
    (asked_head (by decide +kernel) (by decide +kernel)) Sample.named (answering_mem (by decide +kernel)) hreply⟩

/-- A user without permissions asks for them. -/
theorem perms_not_selfDelimiting :
    ¬ ∀ (srv : ServerContext) (fs : FileSystem) (x : Connection) (call : Call) (l : Loop) (it : Iteration)
      (response : Response), Unbroken srv.root.path.native →
      Runs.Reaches (step srv) (fun _ _ => True) (start fs) x → Head srv x call l → Named call.others l.fs →
      it ∈ (l.client.handleOnce srv call.others l.fs l.input).1.trace → it.reply srv call.others = some response →
      SelfDelimiting response.data := by
  intro hall
  have hreply : (Sample.answering Sample.restricted "perms\n\n").reply Sample.restricted Sample.around =
      some ⟨ascii "100 perms\n\n\n", 0⟩ := by decide +kernel
  have hself := hall Sample.restricted _ _ _ _ _ _ (by unfold Unbroken; decide) (asking_reaches Sample.restricted)
    (asked_head (by decide +kernel) (by decide +kernel)) Sample.named (answering_mem (by decide +kernel)) hreply
  have hnone := hself.onlyAtEnd (ascii "100 perms") [newline] (by decide)
  cases hnone

end Connection

end TinDox
