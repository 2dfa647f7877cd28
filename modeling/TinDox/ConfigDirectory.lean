import TinDox.Accesses
import TinDox.Survival

/-! The configuration directory. Clients do not reach it as long as their paths are plain, they do
not remove or move it by name, and the uploads they resume go elsewhere; the server then works on
nothing in it but the partial and backup files of its users. -/

namespace TinDox

open Lexical DirTree FileSystem PathBasedCommand ServerContext

variable {srv : ServerContext} {around : Surroundings} {fs fs' : FileSystem} {p : Path} {k : Key} {n : Bytes}

/-- Neither the normal form of the path nor what a system call makes of it is in the configuration
directory. -/
def Clear (srv : ServerContext) (p : Path) : Prop :=
  ¬ srv.configKey <+: p.lexicallyNormal.key ∧ ¬ srv.configKey <+: p.cString.key

theorem ServerContext.Proper.clear (h : srv.Proper p) : Clear srv p := by
  rw [Clear, Path.key_lexicallyNormal h.1.isAbsolute, h.1.cString_eq]
  exact ⟨h.2, h.2⟩

theorem configKey_eq_of_follow (hk : ¬ srv.configKey <+: k) (hs : slash ∉ n)
    (h : srv.configKey <+: follow k [Path.classify n]) : srv.configKey = k ++ [n] := by
  cases hc : Path.classify n with
  | here =>
    rw [hc] at h
    exact absurd h hk
  | up =>
    rw [hc] at h
    exact absurd (List.IsPrefix.trans h (List.dropLast_prefix k)) hk
  | child m =>
    obtain ⟨rfl, -⟩ := Path.isName_of_classify hs hc
    rw [hc] at h
    exact (List.prefix_concat_iff.mp h).resolve_right hk

theorem clear_append {dir : Path} (hd : srv.Proper dir) (hs : slash ∉ n)
    (hne : (dir / ⟨n⟩).cString ≠ Path.ofKey srv.configKey) : Clear srv (dir / ⟨n⟩) := by
  constructor
  · intro h
    rw [Path.key_lexicallyNormal (Path.isAbsolute_append _ hd.1.isAbsolute),
      Path.key_append (Path.isAbsolute_false_of_no_slash hs), Path.components, Path.parts_of_no_slash hs] at h
    have hconfig := configKey_eq_of_follow hd.2 hs h
    rw [hd.1.append_name hs, ← hconfig, Path.cString_ofKey configKey_noNul] at hne
    exact hne rfl
  · intro h
    rw [hd.1.key_cString_append hs] at h
    have hs' : slash ∉ n.takeWhile (· ≠ 0) := fun hm => hs ((List.takeWhile_prefix _).subset hm)
    have hconfig := configKey_eq_of_follow hd.2 hs' h
    exact hne ((hd.1.cString_append hs).trans (by rw [hconfig]))

theorem key_ofKey_configKey (srv : ServerContext) : (Path.ofKey srv.configKey).key = srv.configKey :=
  Path.key_ofKey configKey_isName

theorem ne_config_of_get (hdir : fs.get srv.configKey = some .dir) (h : fs.get p.cString.key ≠ some .dir) :
    p.cString ≠ Path.ofKey srv.configKey := by
  intro he
  rw [he, key_ofKey_configKey] at h
  exact h hdir

theorem ne_config_of_free (hw : fs.WellFormed) (hdir : fs.get srv.configKey = some .dir)
    (h : fs.pathExists p = false) : p.cString ≠ Path.ofKey srv.configKey := by
  intro he
  have hr := hw.resolve_ofKey configKey_isName (srv.configKey_noNul) (by simp [hdir])
  rw [← he, resolve_cString] at hr
  simp [pathExists, hr] at h

theorem ne_config_of_not_above (h : ¬ p.cString.key <+: srv.configKey) : p.cString ≠ Path.ofKey srv.configKey := by
  intro he
  rw [he, key_ofKey_configKey] at h
  exact h (List.prefix_refl _)

structure ConfigRequest (srv : ServerContext) (fs : FileSystem) (c : ClientContext) (r : Request) : Prop where
  path : r.name ∈ pathCommands → PlainField srv r.fields
  removes : ∀ p, Removes c r p → ¬ p.cString.key <+: srv.configKey
  moves : ∀ old new, Relocates srv fs c r old new → ¬ old.cString.key <+: srv.configKey
  resumes : r.name = ascii "ul" → ∀ name size, Ul.parseFields r.fields = .ok (.ul name size true) →
    ∀ token ∈ c.authToken, ∀ path sz off,
      Ul.parseBackup srv fs token.username = some ⟨some path, sz, off⟩ → Clear srv ⟨path⟩

section Requests

variable {c : ClientContext} {r : Request}

theorem ConfigRequest.proper (h : ConfigRequest srv fs c r) (hname : r.name ∈ pathCommands)
    (hcur : ∀ cur ∈ c.currentPathLock, srv.Proper cur) (hp : parseFields srv fs c r.fields = .ok (some p)) :
    srv.Proper p :=
  (parseFields_proper (h.path hname) (fun cur hc => (hcur cur hc).1) hp).1

theorem Makes.clear (hm : Makes srv fs c r p) (h : ConfigRequest srv fs c r)
    (hcur : ∀ cur ∈ c.currentPathLock, srv.Proper cur) (hdir : fs.get srv.configKey = some .dir)
    (hfree : fs.get p.cString.key = none) : Clear srv p := by
  have hne : p.cString ≠ Path.ofKey srv.configKey := ne_config_of_get hdir (by simp [hfree])
  cases hm with
  | mkdir current _ parsed => exact clear_append (hcur _ current) (parseSingleName_ok parsed) hne
  | @cp path name cur new current command parsed chosen =>
    obtain ⟨hpath, -, -, -, hs⟩ := TransportCommand.parseFields_ok parsed
    obtain ⟨found, hfound, rfl⟩ := Cp.freePath_ok hs hs chosen
    exact clear_append (h.proper (by simp [command, pathCommands]) hcur hpath) hfound hne

theorem Relocates.clear {old new : Path} (hm : Relocates srv fs c r old new) (h : ConfigRequest srv fs c r)
    (hcur : ∀ cur ∈ c.currentPathLock, srv.Proper cur) (hdir : fs.get srv.configKey = some .dir)
    (hfree : fs.get new.cString.key = none) : Clear srv old ∧ Clear srv new := by
  have hold := ne_config_of_not_above (h.moves _ _ hm)
  have hnew : new.cString ≠ Path.ofKey srv.configKey := ne_config_of_get hdir (by simp [hfree])
  cases hm with
  | rename current _ parsed =>
    obtain ⟨ho, hn⟩ := Rename.parseFields_ok parsed
    exact ⟨clear_append (hcur _ current) ho hold, clear_append (hcur _ current) hn hnew⟩
  | mv current command parsed =>
    obtain ⟨hpath, -, -, -, hs⟩ := TransportCommand.parseFields_ok parsed
    have hproper := h.proper (by simp [command, pathCommands]) hcur hpath
    exact ⟨clear_append (hcur _ current) hs hold, clear_append hproper hs hnew⟩

theorem Removes.clear (hm : Removes c r p) (h : ConfigRequest srv fs c r)
    (hcur : ∀ cur ∈ c.currentPathLock, srv.Proper cur) : Clear srv p := by
  have hne := ne_config_of_not_above (h.removes _ hm)
  cases hm with
  | rm current _ parsed => exact clear_append (hcur _ current) (parseSingleName_ok parsed) hne

theorem AcceptsUpload.clear {upload : UploadToken} (ha : AcceptsUpload srv around fs c r fs' upload)
    (hw : fs.WellFormed) (hname : r.name = ascii "ul") (h : ConfigRequest srv fs c r)
    (hcur : ∀ cur ∈ c.currentPathLock, srv.Proper cur) (hdir : fs.get srv.configKey = some .dir) :
    Clear srv upload.path := by
  cases ha with
  | fresh parsed current user accepted =>
    obtain ⟨-, -, hfree, -⟩ := uploadFile_ok accepted
    exact clear_append (hcur _ current) (Ul.parseFields_ok parsed) (ne_config_of_free hw hdir hfree)
  | resumed parsed user backup taken accepted => exact h.resumes hname _ _ parsed _ user _ _ _ backup

theorem proper_entryPath {directory : Path} (hw : fs.WellFormed) (hd : srv.Proper directory)
    (hn : n ∈ fs.entries directory) (hshown : (entryPath directory n).startsWith srv.configDirectory = false) :
    srv.Proper (entryPath directory n) := by
  have hname := isEntryName_of_mem_entries hw hn
  have hplain : (entryPath directory n).Plain := by
    rw [entryPath, hd.1.append_name hname.1.2.2.2]
    refine Path.plain_ofKey (fun m hm => ?_) (fun m hm => ?_)
    · rcases List.mem_append.mp hm with hm | hm
      · exact directory.key_isName m hm
      · exact (List.mem_singleton.mp hm) ▸ hname.1
    · rcases List.mem_append.mp hm with hm | hm
      · exact hd.1.key_noNul m hm
      · exact (List.mem_singleton.mp hm) ▸ hname.2.1
  exact proper_of_startsWith hplain hshown

theorem Tree.Visits.proper {directory : Path} (hw : fs.WellFormed) (hd : srv.Proper directory)
    (h : Tree.Visits srv fs directory p) : srv.Proper p := by
  induction h with
  | entry listed shown => exact proper_entryPath hw hd listed shown
  | deeper listed shown _ ih => exact ih (proper_entryPath hw hd listed shown)

theorem ConfigRequest.proper_directory {path : Option Path} {directory : Path} (h : ConfigRequest srv fs c r)
    (hname : r.name ∈ pathCommands) (hcur : ∀ cur ∈ c.currentPathLock, srv.Proper cur)
    (hp : parseFields srv fs c r.fields = .ok path) (hd : Ls.directory ⟨fs, c⟩ path = .ok directory) :
    srv.Proper directory := by
  unfold Ls.directory at hd
  split at hd
  · rename_i q hq
    split at hd
    · obtain rfl := Except.ok.inj hd
      cases path with
      | none => exact hcur q hq
      | some p =>
        obtain rfl := Option.some.inj hq
        exact h.proper hname hcur hp
    · simp at hd
  · simp at hd

end Requests

/-- No request reaches the configuration directory. -/
theorem Access.clear {s : Session} {r : Request} (ha : Access srv around fs s r p) (hw : fs.WellFormed)
    (h : ConfigRequest srv fs s.context r) (hcur : ∀ cur ∈ s.context.currentPathLock, srv.Proper cur)
    (hdir : fs.get srv.configKey = some .dir) : Clear srv p := by
  cases ha with
  | listed command parsed start =>
    have hname : r.name ∈ pathCommands := by rcases command with hc | hc <;> simp [hc, pathCommands]
    exact (h.proper_directory hname hcur parsed start).clear
  | entry command parsed start listed shown =>
    have hd := h.proper_directory (by simp [command, pathCommands]) hcur parsed start
    exact (proper_entryPath hw hd listed shown).clear
  | visited command parsed start visited =>
    have hd := h.proper_directory (by simp [command, pathCommands]) hcur parsed start
    exact (visited.proper hw hd).clear
  | entered command parsed => exact (h.proper (by simp [command, pathCommands]) hcur parsed).clear
  | copied current _ parsed _ copied =>
    obtain ⟨-, -, -, -, hs⟩ := TransportCommand.parseFields_ok parsed
    obtain ⟨i, hstatus, -⟩ := copyFile_ok copied
    obtain ⟨k, hk, hg⟩ := Option.bind_eq_some_iff.mp hstatus
    obtain rfl := resolve_eq_key hk
    exact clear_append (hcur _ current) hs (ne_config_of_get hdir (by simp [hg]))
  | made makes _ free => exact makes.clear h hcur hdir free
  | source moves free renamed => exact (moves.clear h hcur hdir (rename_free renamed free)).1
  | target moves free renamed => exact (moves.clear h hcur hdir (rename_free renamed free)).2
  | removed removes => exact removes.clear h hcur
  | downloaded current _ parsed accepted =>
    obtain ⟨i, hi⟩ := isRegularFile_get (downloadFile_ok accepted).2
    exact clear_append (hcur _ current) (Dl.parseFields_ok parsed) (ne_config_of_get hdir (by simp [hi]))
  | uploaded command accepted => exact accepted.clear hw command h hcur hdir

/-- In the configuration directory only the files of the users differ. -/
structure ConfigKept (srv : ServerContext) (fs fs' : FileSystem) : Prop where
  view_eq : ∀ k, srv.configKey <+: k → (∀ j, srv.OwnPlace j → ¬ j <+: k) → fs'.view k = fs.view k
  files : ∀ k i, srv.configKey <+: k → fs'.get k = some (.file i) → fs.get k = some (.file i) ∨ fs.data.length ≤ i
  data_le : fs.data.length ≤ fs'.data.length

theorem not_prefix_of_apart {j : Key} (hj : ¬ j <+: srv.configKey) (hj' : ¬ srv.configKey <+: j)
    (hk : srv.configKey <+: k) : ¬ j <+: k := by
  intro hjk
  rcases List.prefix_or_prefix_of_prefix hjk hk with h | h
  · exact hj h
  · exact hj' h

theorem ConfigKept.of_get (hg : ∀ k, srv.configKey <+: k → fs'.get k = fs.get k) (hd : fs'.data = fs.data) :
    ConfigKept srv fs fs' :=
  ⟨fun k hk _ => view_of_data (hg k hk) hd, fun k i hk hi => .inl ((hg k hk).symm.trans hi), Nat.le_of_eq (by rw [hd])⟩

theorem ConfigKept.of_moves {o n : Key} (h : Moves fs fs' o n) (ho : ∀ k, srv.configKey <+: k → ¬ o <+: k)
    (hn : ∀ k, srv.configKey <+: k → ¬ n <+: k) : ConfigKept srv fs fs' :=
  .of_get (fun k hk => by rw [h.get_eq, if_neg (hn k hk), if_neg (ho k hk)]) h.data

theorem not_prefix_of_free (hw : fs.WellFormed) (hdir : fs.get srv.configKey = some .dir) (hf : fs.get k = none) :
    ¬ k <+: srv.configKey := by
  intro hpre
  have hnone : fs.get srv.configKey = none := hw.closed.none_of_above hf hpre
  simp [hdir] at hnone

theorem Edit.configKept {c : ClientContext} {r : Request} (h : Edit srv around fs c r fs') (hw : fs.WellFormed)
    (hc : ConfigRequest srv fs c r) (hcur : ∀ cur ∈ c.currentPathLock, srv.Proper cur)
    (hdir : fs.get srv.configKey = some .dir) : ConfigKept srv fs fs' := by
  cases h with
  | own kept =>
    exact ⟨fun k _ hk => kept.view_eq k (fun hown => hk k hown (List.prefix_refl _)), fun k i _ => kept.files k i,
      kept.data_le⟩
  | @made p _ makes located free entry =>
    have hclear := (makes.clear hc hcur hdir free).2
    have hne : ∀ k, srv.configKey <+: k → k ≠ p.cString.key := fun k hk he => hclear (he ▸ hk)
    have hnil := (locate_ok located).2.1
    rcases entry with rfl | ⟨b, rfl⟩
    · exact .of_get (fun k hk => by rw [FileSystem.get_insert hnil free, if_neg (hne k hk)]) rfl
    · have hget : ∀ k, srv.configKey <+: k → (fs.create p.cString.key b).get k = fs.get k :=
        fun k hk => by rw [get_create hnil free, if_neg (hne k hk)]
      refine ⟨fun k hk _ => ?_, fun k i hk hi => .inl ((hget k hk).symm.trans hi), by simp [FileSystem.create]⟩
      rw [hw.view_create hnil free, if_neg (hne k hk)]
  | moved moves _ free renamed =>
    have hfree := rename_free renamed free
    obtain ⟨hold, hnew⟩ := moves.clear hc hcur hdir hfree
    obtain ⟨-, ⟨rfl, -⟩ | hm⟩ := hw.rename renamed
    · exact .of_get (fun _ _ => rfl) rfl
    · exact .of_moves hm (fun k => not_prefix_of_apart (hc.moves _ _ moves) hold.2)
        (fun k => not_prefix_of_apart (not_prefix_of_free hw hdir hfree) hnew.2)
  | removed removes _ =>
    obtain ⟨-, hdata, hget⟩ := hw.removeAll _
    exact .of_get (fun k hk => hget k (not_prefix_of_apart (hc.removes _ removes) (removes.clear hc hcur).2 hk)) hdata

/-- The file an upload writes to is one of the server's own, as far as it is in the configuration
directory at all. -/
def Linked (srv : ServerContext) (fs : FileSystem) (i : Nat) : Prop :=
  i < fs.data.length ∧ ∀ k, fs.get k = some (.file i) → srv.configKey <+: k → srv.OwnPlace k

theorem Linked.mono {i : Nat} (h : Linked srv fs i) (hk : ConfigKept srv fs fs') : Linked srv fs' i := by
  have hle := hk.data_le
  refine ⟨Nat.lt_of_lt_of_le h.1 hle, fun k hg hc => ?_⟩
  rcases hk.files k i hc hg with hg | hg
  · exact h.2 k hg hc
  · have hlt := h.1
    omega

theorem ConfigKept.config (h : ConfigKept srv fs fs') (hdir : fs.get srv.configKey = some .dir) :
    fs'.get srv.configKey = some .dir := by
  have hview : fs'.view srv.configKey = fs.view srv.configKey :=
    h.view_eq _ (List.prefix_refl _) (fun _ hown => hown.not_prefix_configKey)
  rw [← view_eq_dir, hview, view_eq_dir, hdir]

theorem ConfigKept.of_bookkeeping (h : Bookkeeping srv fs fs') : ConfigKept srv fs fs' :=
  ⟨fun k _ hk => h.view_eq k (fun hown => hk k hown (List.prefix_refl _)), fun k i _ => h.files k i, h.data_le⟩

/-- What a session has to do with the configuration directory. -/
structure Session.KeepsClear (srv : ServerContext) (fs : FileSystem) (s : Session) : Prop where
  current : ∀ cur ∈ s.context.currentPathLock, srv.Proper cur
  upload : ∀ token ∈ s.uploadManager.token, Clear srv token.path
  file : ∀ i ∈ s.uploadManager.file, Linked srv fs i

theorem Session.KeepsClear.mono {s : Session} (h : s.KeepsClear srv fs) (hk : ConfigKept srv fs fs') :
    s.KeepsClear srv fs' :=
  ⟨h.current, h.upload, fun i hi => (h.file i hi).mono hk⟩

theorem UploadManager.startUpload_linked {m : UploadManager} {token : UploadToken} (hw : fs.WellFormed)
    (hu : srv.HasUser token.temporaryFilenameStem) (hfile : ∀ i ∈ m.file, Linked srv fs i) :
    ∀ i ∈ (m.startUpload srv fs token).2.1.file, Linked srv (m.startUpload srv fs token).1 i := by
  have hpart : srv.OwnPath (srv.getPartialFilePath token.temporaryFilenameStem) := .inr ⟨_, hu, .inl rfl⟩
  have hback : srv.OwnPath (srv.getBackupFilePath token.temporaryFilenameStem) := .inr ⟨_, hu, .inr rfl⟩
  rcases startUpload_cases srv fs m token with h | ⟨fs₁, i, fs₂, out, -, hopen, hremove, h⟩
  · rw [h]
    exact hfile
  · rw [h]
    intro j hj
    obtain rfl := Option.some.inj hj
    obtain ⟨hw₁, hg, hlt, -⟩ := hw.openWrite hopen
    have hlinked : Linked srv fs₁ i :=
      ⟨hlt, fun k hk _ => hw₁.unique _ _ _ hg hk ▸ hpart.openWrite hopen⟩
    rcases hremove with ⟨rfl, -⟩ | ⟨removed, hr⟩
    · exact hlinked
    · exact hlinked.mono (.of_bookkeeping (.remove hw₁ hback hr))

theorem UploadManager.commitBytes_file {m : UploadManager} {bytes : Bytes} {i : Nat}
    (h : i ∈ (m.commitBytes fs bytes).2.1.file) : i ∈ m.file := by
  rcases commitBytes_cases fs m bytes with
    ⟨-, hc⟩ | ⟨token, i, -, -, ⟨-, hc⟩ | ⟨-, ⟨fs₁, -, hc⟩ | ⟨e, -, hc⟩⟩⟩
  · rwa [hc] at h
  · rwa [hc] at h
  · simp [hc] at h
  · simp [hc] at h

theorem Effect.keepsClear {s s' : Session} {r : Request} (h : Effect srv around fs s r fs' s') (hw : fs.WellFormed)
    (hacc : s.Accounted srv) (hdir : fs.get srv.configKey = some .dir) (hs : s.KeepsClear srv fs)
    (hc : ConfigRequest srv fs s.context r) (hkept : s.KeepsClear srv fs') : s'.KeepsClear srv fs' := by
  cases h with
  | none | flags | logout | cp | mkdir | mv | rename | rm | dl | dls | unbacked =>
    exact ⟨hkept.current, hkept.upload, hkept.file⟩
  | login _ _ locked =>
    refine ⟨fun cur hcur => ?_, hkept.upload, hkept.file⟩
    rcases locked with rfl | ⟨rfl, -⟩
    · exact hkept.current cur hcur
    · obtain rfl := Option.some.inj hcur
      exact srv.proper_root
  | cd command parsed =>
    refine ⟨fun cur hcur => ?_, hkept.upload, hkept.file⟩
    obtain rfl := Option.some.inj hcur
    exact hc.proper (by simp [command, pathCommands]) hs.current parsed
  | @ul fs₁ upload command accepted =>
    obtain ⟨hkeep, hu⟩ := accepted.bookkeeping hw hacc
    have hfile : ∀ i ∈ s.uploadManager.file, Linked srv fs₁ i :=
      fun i hi => (hs.file i hi).mono (.of_bookkeeping hkeep)
    refine ⟨hkept.current, fun t ht => ?_, UploadManager.startUpload_linked hkeep.wellFormed hu hfile⟩
    have htoken := UploadManager.startUpload_token srv fs₁ s.uploadManager upload
    obtain rfl : upload = t := Option.some.inj (htoken.symm.trans ht)
    exact accepted.clear hw command hc hs.current hdir

def ConfigAction (srv : ServerContext) (S : Server) : Action → Prop
  | .request fd r _ _ => ∀ s ∈ S.lookup fd, ConfigRequest srv S.fs s.context r
  | _ => True

namespace Server

structure ConfigClear (srv : ServerContext) (S : Server) : Prop where
  sane : Sane srv S
  config : S.fs.get srv.configKey = some .dir
  sessions : ∀ e ∈ S.sessions, e.2.KeepsClear srv S.fs

variable {S S' : Server} {a : Action}

theorem Edit.configKept (h : Edit srv S a fs') (hS : ConfigClear srv S) (ha : ConfigAction srv S a) :
    ConfigKept srv S.fs fs' := by
  have hw := hS.sane.wellFormed
  cases h with
  | own kept => exact .of_bookkeeping kept
  | @request fd s r available lastWriteTime _ action found edit =>
    subst action
    exact edit.configKept hw (ha s found) (hS.sessions _ (mem_of_lookup found)).current hS.config
  | written _ found _ file =>
    have hlinked := (hS.sessions _ (mem_of_lookup found)).file _ file
    exact ⟨fun k hk hown => view_write_of_ne _ (fun hg => hown k (hlinked.2 k hg hk) (List.prefix_refl _)),
      fun k i _ hi => .inl hi, by simp [FileSystem.write]⟩
  | @finished fd s bytes token i _ _ found active file _ renamed =>
    have hs := hS.sessions _ (mem_of_lookup found)
    have hlinked := hs.file _ file
    have hwrite : ConfigKept srv S.fs (S.fs.write i (bytes.take (UploadManager.taken token bytes))) :=
      ⟨fun k hk hown => view_write_of_ne _ (fun hg => hown k (hlinked.2 k hg hk) (List.prefix_refl _)),
        fun k i _ hi => .inl hi, by simp [FileSystem.write]⟩
    obtain ⟨-, ⟨rfl, -⟩ | hm⟩ := (hw.write _ _).rename renamed
    · exact hwrite
    · have hown := (hS.sane.lookup found).manager.1.locate (rename_ok renamed).1
      have hclear := (hs.upload token active).2
      -- what stands at the target has nothing below it, so it is not above the configuration directory
      have htarget : ∀ k, srv.configKey <+: k → ¬ token.path.cString.key <+: k := by
        refine fun k => not_prefix_of_apart ?_ hclear
        rintro ⟨rest, hrest⟩
        by_cases hnil : rest = []
        · rw [hnil, List.append_nil] at hrest
          exact hclear (hrest ▸ List.prefix_refl _)
        · have hnone := hm.empty rest hnil
          rw [hrest, get_write, hS.config] at hnone
          simp at hnone
      have hget : ∀ k, srv.configKey <+: k → fs'.get k =
          if s.uploadManager.partialFileName.cString.key <+: k then none else S.fs.get k := by
        intro k hk
        rw [hm.get_eq, if_neg (htarget k hk), get_write]
      refine ⟨fun k hk hown' => ?_, fun k j hk hj => .inl ?_, ?_⟩
      · rw [hm.view_eq, if_neg (htarget k hk), if_neg (hown' _ hown)]
        exact hwrite.view_eq k hk hown'
      · rw [hget k hk] at hj
        split at hj
        · simp at hj
        · exact hj
      · rw [hm.data]
        simp [FileSystem.write]

theorem ConfigClear.transition (hS : ConfigClear srv S) (ha : ConfigAction srv S a) (h : Transition srv S a S') :
    ConfigClear srv S' := by
  have hkept := (h.edit hS.sane).configKept hS ha
  have hheld : ∀ fs', Edit srv S a fs' → ∀ e ∈ S.sessions, e.2.KeepsClear srv fs' :=
    fun fs' hedit e he => (hS.sessions e he).mono (hedit.configKept hS ha)
  refine ⟨hS.sane.transition h, hkept.config hS.config, ?_⟩
  refine h.forall_sessions (I := fun fs s => s.KeepsClear srv fs) hS.sessions ?_
    (fun _ s hs => ⟨by simpa using hs.current, by simpa using hs.upload, by simpa using hs.file⟩) ?_ ?_
  · refine ⟨?_, ?_, ?_⟩ <;> simp [Session.new, ClientContext.new, UploadManager.new]
  · intro fd s fs' s' found hacts
    have hall := hheld fs' (hacts.edit hS.sane found)
    have hs := hall _ (mem_of_lookup found)
    refine ⟨?_, hall⟩
    cases hacts with
    | request mode effect =>
      exact effect.keepsClear hS.sane.wellFormed (hS.sane.lookup found) hS.config
        (hS.sessions _ (mem_of_lookup found)) (ha s found) hs
    | chunk mode handled =>
      obtain ⟨-, mode', rfl⟩ := Session.handleUpload_cases handled
      refine ⟨hs.current, fun t ht => ?_, fun i hi => hs.file i (UploadManager.commitBytes_file hi)⟩
      obtain ⟨token, htoken, hpath⟩ := UploadManager.commitBytes_path ht
      rw [hpath]
      exact hs.upload token htoken
    | send mode handled =>
      obtain ⟨mode', rfl⟩ := Session.handleDownloadManagerOutput_cases handled
      exact ⟨hs.current, hs.upload, hs.file⟩
  · intro fd s action found
    exact hheld _ (.own ((hS.sane.lookup found).manager.destroy hS.sane.wellFormed))

end Server

/-- An action stays out of the configuration directory: what a request reaches and the targets of
all uploads are elsewhere, and nothing in that directory changes but the files of the users. -/
structure StaysOut (srv : ServerContext) (S : Server) (a : Action) : Prop where
  reached : ∀ fd r available lastWriteTime, a = .request fd r available lastWriteTime → ∀ s ∈ S.lookup fd,
    ∀ p, Access srv (S.surroundings available lastWriteTime) S.fs s r p → Clear srv p
  targets : ∀ e ∈ S.sessions, ∀ token ∈ e.2.uploadManager.token, Clear srv token.path
  unchanged : ∀ k, srv.configKey <+: k → (∀ j, srv.OwnPlace j → ¬ j <+: k) →
    (Server.step srv S a).fs.view k = S.fs.view k

/-- Along a run of actions that meet the condition, the configuration directory is not reached. -/
theorem stays_out_of_config {S : Server} {a : Action} (hw : fs.WellFormed)
    (hdir : fs.get srv.configKey = some .dir)
    (h : Runs.Reaches (Server.step srv) (ConfigAction srv) (Server.start fs) S) (ha : ConfigAction srv S a) :
    StaysOut srv S a := by
  have hstart : Server.ConfigClear srv (Server.start fs) := ⟨Server.sane_start srv hw, hdir, by simp [Server.start]⟩
  have hS : Server.ConfigClear srv S :=
    h.invariant hstart (fun S a hS ha => hS.transition ha (Server.step_transition srv S a))
  refine ⟨?_, fun e he token ht => (hS.sessions e he).upload token ht, ?_⟩
  · rintro fd r available lastWriteTime rfl s found p haccess
    have hs := hS.sessions _ (Server.mem_of_lookup found)
    exact haccess.clear hS.sane.wellFormed (ha s found) hs.current hS.config
  · exact (((Server.step_transition srv S a).edit hS.sane).configKept hS ha).view_eq

namespace Sample

theorem configRequest_of_name {c : ClientContext} {r : Request} (hp : r.name ∉ pathCommands)
    (hn : r.name ∉ [ascii "rm", ascii "rename", ascii "ul"]) : ConfigRequest srv fs c r := by
  refine ⟨fun h => absurd h hp, fun p hm => ?_, fun old new hm => ?_, fun h => absurd (by simp [h]) hn⟩
  · cases hm with
    | rm _ command _ => exact absurd (by simp [command]) hn
  · cases hm with
    | rename _ command _ => exact absurd (by simp [command]) hn
    | mv _ command _ => exact absurd (by simp [command, pathCommands]) hp

theorem configRequest_cd {c : ClientContext} {fields : List Field} (h : PlainField srv fields) :
    ConfigRequest srv fs c ⟨ascii "cd", fields⟩ := by
  refine ⟨fun _ => h, ?_, ?_, fun hname => absurd hname (show ascii "cd" ≠ ascii "ul" by decide)⟩
  · intro p hm
    cases hm with
    | rm _ command _ => exact absurd command (show ascii "cd" ≠ ascii "rm" by decide)
  · intro old new hm
    cases hm with
    | rename _ command _ => exact absurd command (show ascii "cd" ≠ ascii "rename" by decide)
    | mv _ command _ => exact absurd command (show ascii "cd" ≠ ascii "mv" by decide)

theorem configRequest_rm {c : ClientContext} {fields : List Field} {cur name : Path} (hcur : c.currentPathLock = some cur)
    (hname : parseSingleName fields = .ok name) (h : ¬ (cur / name).cString.key <+: srv.configKey) :
    ConfigRequest srv fs c ⟨ascii "rm", fields⟩ := by
  refine ⟨fun hn => absurd hn (show ascii "rm" ∉ pathCommands by decide), ?_, ?_,
    fun hn => absurd hn (show ascii "rm" ≠ ascii "ul" by decide)⟩
  · intro p hm
    cases hm with
    | rm current _ parsed =>
      obtain rfl := Option.some.inj (hcur.symm.trans current)
      obtain rfl := Except.ok.inj (hname.symm.trans parsed)
      exact h
  · intro old new hm
    cases hm with
    | rename _ command _ => exact absurd command (show ascii "rm" ≠ ascii "rename" by decide)
    | mv _ command _ => exact absurd command (show ascii "rm" ≠ ascii "mv" by decide)

theorem configRequest_ul {c : ClientContext} {fields : List Field}
    (h : ∀ name size, Ul.parseFields fields = .ok (.ul name size true) → ∀ token ∈ c.authToken, ∀ path sz off,
      Ul.parseBackup srv fs token.username = some ⟨some path, sz, off⟩ → Clear srv ⟨path⟩) :
    ConfigRequest srv fs c ⟨ascii "ul", fields⟩ := by
  refine ⟨fun hname => absurd hname (show ascii "ul" ∉ pathCommands by decide), ?_, ?_, fun _ => h⟩
  · intro p hm
    cases hm with
    | rm _ command _ => exact absurd command (show ascii "ul" ≠ ascii "rm" by decide)
  · intro old new hm
    cases hm with
    | rename _ command _ => exact absurd command (show ascii "ul" ≠ ascii "rename" by decide)
    | mv _ command _ => exact absurd command (show ascii "ul" ≠ ascii "mv" by decide)

/-- A directory with an entry, and an upload that was interrupted. -/
def backedUp : FileSystem :=
  ⟨tree [([ascii "r", ascii "a"], .dir), ([ascii "r", ascii "a", ascii "b"], .dir),
    (tds ++ [ascii "u.upload"], .file 0), (tds ++ [ascii "u.partial"], .file 1)],
    [UploadManager.backupText interrupted, ascii "ab"]⟩

/-- A client goes to the directory and removes the entry. -/
def cleared : List Action :=
  loggedIn 0 "u" [request 0 "cd" [string "path" "/a"], request 0 "rm" [string "name" "b"]]

def resuming : List Field := [string "name" "x", ⟨ascii "size", .integer 5⟩, ⟨ascii "retry", .boolean true⟩]

end Sample

theorem stays_out_of_config_resuming :
    StaysOut Sample.server
      (Runs.run (Server.step Sample.server) (Server.start Sample.backedUp) Sample.cleared)
      (Sample.request 0 "ul" Sample.resuming) := by
  have hw : Sample.backedUp.WellFormed := by decide +kernel
  have hdir : Sample.backedUp.get Sample.server.configKey = some .dir := by decide
  refine stays_out_of_config hw hdir (Runs.AllMeet.reaches ⟨trivial, fun s _ => ?_, fun s _ => ?_, fun s hs => ?_, trivial⟩)
    (fun s _ => Sample.configRequest_ul ?_)
  · exact Sample.configRequest_of_name (show ascii "auth" ∉ pathCommands by decide)
      (show ascii "auth" ∉ [ascii "rm", ascii "rename", ascii "ul"] by decide)
  · exact Sample.configRequest_cd (.of_absolute (v := ascii "/a") (by decide) (by decide) (by decide))
  · have hcur : s.context.currentPathLock = some ⟨ascii "/r/a"⟩ := by
      revert s
      decide +kernel
    exact Sample.configRequest_rm hcur (show parseSingleName _ = .ok ⟨ascii "b"⟩ by decide) (by decide)
  · intro _ _ _ token _ path sz off hbackup
    obtain ⟨b, -, hparse⟩ := Option.bind_eq_some_iff.mp hbackup
    have hpath : path = ascii "/r/x" := by
      simp only [Sample.server] at hparse
      split at hparse
      · cases hparse
        rfl
      · cases hparse
    rw [hpath]
    exact ⟨by decide, by decide⟩

/-- The directory is removed by its name, and listed behind a second separator. -/
theorem config_removed_and_listed :
    let S := Runs.run (Server.step Sample.server) (Server.start Sample.twoDirectories) (Sample.loggedIn 0 "u" [])
    ¬ StaysOut Sample.server S (Sample.request 0 "rm" [Sample.string "name" ".tds"]) ∧
    ¬ StaysOut Sample.server S (Sample.request 0 "ls" [Sample.string "path" "//.tds"]) := by
  intro S
  constructor
  · intro h
    have hview := h.unchanged Sample.server.configKey (List.prefix_refl _) (fun _ hown => hown.not_prefix_configKey)
    exact absurd hview (by decide +kernel)
  · intro h
    have hparsed : parseFields Sample.server S.fs Sample.session.context [Sample.string "path" "//.tds"] =
        .ok (some ⟨ascii "/r//.tds"⟩) := by decide +kernel
    have hclear := h.reached 0 ⟨ascii "ls", [Sample.string "path" "//.tds"]⟩ 1000 (fun _ => []) rfl Sample.session
      (show S.lookup 0 = some Sample.session by decide +kernel) ⟨ascii "/r//.tds"⟩
      (.listed (.inl rfl) hparsed (by decide +kernel))
    exact absurd hclear.1 (by decide +kernel)

end TinDox
