import Libevl.EvlPsSort

/-!
# Which threads evl ps recognizes

A thread is recognized when the flag of its entry is set at the end of the walk.
Each file overwrites that flag, so the last one decides, whatever the others
contained; files without a size do not count. Once the hash table is full, every
file of a further thread gets an entry of its own, and one good file is enough.
-/
namespace Libevl.EvlPs
open ForwardList

/-- An attribute file of a thread. -/
def File.attr (f : File) : Bool :=
  f.typeflag = .file ∧ f.level = 2 ∧ (collectHandlers.lookup f.base).isSome

/-- An attribute file which is looked into. -/
def File.seen (f : File) : Bool := f.attr ∧ f.size ≠ 0

/-- It was read, and its handler accepts it. -/
def File.accepted (f : File) : Bool :=
  f.seen && match collectHandlers.lookup f.base, readBuf f with
    | some h, some buf => (h.handle (.zero f.dirname) buf).2
    | _, _ => false

/-- An entry with the name of the thread is listed and has its flag set. -/
def Recognized (s : State) (t : String) : Prop :=
  ∃ ti ∈ walk s.next s.threadNr s.threadList, (s.info ti).name = t ∧ (s.info ti).parseOk = true

instance (s : State) (t : String) : Decidable (Recognized s t) :=
  inferInstanceAs (Decidable (∃ ti ∈ walk s.next s.threadNr s.threadList, _))

/-- Exactly the threads are recognized all of whose attribute files were read and accepted. -/
def Faithful (cap : ℕ) (files : List File) : Prop :=
  ∀ t, (∃ f ∈ files, f.attr = true ∧ f.dirname = t) →
    (Recognized (scanAll cap .initial files) t ↔
      ∀ f ∈ files, f.attr = true → f.dirname = t → f.accepted = true)

/-- The files of a thread which are looked into, in order. -/
def visits (t : String) (files : List File) : List File :=
  files.filter fun f => f.seen && f.dirname = t

/-- The threads that find a place in the hash table: the first ones. -/
def registerOne (cap : ℕ) (names : List String) (f : File) : List String :=
  if f.seen ∧ f.dirname ∉ names ∧ names.length < cap then names ++ [f.dirname] else names

def registered (cap : ℕ) (files : List File) : List String := files.foldl (registerOne cap) []

/-- Each thread has all of its attribute files accepted, or else the last one with a size is not;
without a place in the hash table, none of them is. -/
def Settled (cap : ℕ) (files : List File) : Prop :=
  ∀ t, (∀ f ∈ files, f.attr = true → f.dirname = t → f.accepted = true) ∨
    if t ∈ registered cap files then ∀ f ∈ (visits t files).getLast?, f.accepted = false
    else ∀ f ∈ visits t files, f.accepted = false

/-- Each thread has all of its attribute files accepted, or none of those with a size. -/
def Unanimous (files : List File) : Prop :=
  ∀ t, (∀ f ∈ files, f.attr = true → f.dirname = t → f.accepted = true) ∨
    ∀ f ∈ visits t files, f.accepted = false

section Handlers

/-- Handlers store values, and keep the name. -/
theorem handle_name (h : Handler) (ti : ThreadInfo) (buf : List Char) :
    (h.handle ti buf).1.name = ti.name := by
  cases h <;> rfl

/-- Whether they accept depends on the text alone. -/
theorem handle_accepts (h : Handler) (ti tj : ThreadInfo) (buf : List Char) :
    (h.handle ti buf).2 = (h.handle tj buf).2 := by
  cases h <;> rfl

end Handlers

section Step

variable {cap : ℕ} {s : State} {f : File} {files : List File} {L : List ℕ} {t : String}

theorem scanThread_unseen (hf : f.seen = false) : (scanThread cap s f).1 = s := by
  unfold scanThread
  split_ifs with h₁ h₂
  · rfl
  · rfl
  · rw [not_or, not_or, not_not, not_not] at h₂
    cases hh : collectHandlers.lookup f.base with
    | none => rfl
    | some h => simp [File.seen, File.attr, h₂, hh] at hf

/-- A file that is looked into sets the flag of the entry, and nothing else that counts. -/
theorem scanThread_seen (cap : ℕ) (s : State) (hf : f.seen = true) :
    ∃ ti, (scanThread cap s f).1 =
      { (findEntry cap s f.dirname).1 with
        info := Function.update (findEntry cap s f.dirname).1.info
          (findEntry cap s f.dirname).2 ti } ∧
      ti.name = ((findEntry cap s f.dirname).1.info (findEntry cap s f.dirname).2).name ∧
      ti.parseOk = f.accepted := by
  have hattr : f.attr = true ∧ f.size ≠ 0 := by simpa [File.seen] using hf
  have hfile : f.typeflag = .file ∧ f.level = 2 ∧ (collectHandlers.lookup f.base).isSome := by
    simpa [File.attr] using hattr.1
  obtain ⟨h, hh⟩ := Option.isSome_iff_exists.mp hfile.2.2
  have hscan : ¬ (f.typeflag ≠ .file ∨ f.level ≠ 2 ∨ f.size = 0) := by
    simp [hfile.1, hfile.2.1, hattr.2]
  have hdir : ¬ (f.typeflag = .directory ∧ f.base = "clone") := by simp [hfile.1]
  unfold scanThread
  rw [if_neg hdir, if_neg hscan]
  simp only [hh]
  refine ⟨_, rfl, ?_, ?_⟩
  · cases readBuf f with
    | none => rfl
    | some buf => exact handle_name h _ buf
  · rw [File.accepted, hf, hh]
    cases readBuf f with
    | none => rfl
    | some buf => exact handle_accepts h _ _ buf

theorem visits_concat (t : String) (files : List File) (f : File) :
    visits t (files ++ [f]) = visits t files ++ if f.seen ∧ f.dirname = t then [f] else [] := by
  by_cases hf : f.seen = true ∧ f.dirname = t <;> simp_all [visits]

theorem registered_concat (cap : ℕ) (files : List File) (f : File) :
    registered cap (files ++ [f]) = registerOne cap (registered cap files) f := by
  simp [registered]

theorem visits_unseen (hf : f.seen = false) : visits t (files ++ [f]) = visits t files := by
  simp [visits_concat, hf]

theorem visits_other (hf : f.dirname ≠ t) : visits t (files ++ [f]) = visits t files := by
  simp [visits_concat, hf]

end Step

section Entries

variable {cap : ℕ} {s : State} {f : File} {files : List File} {L : List ℕ} {t : String} {ti : ℕ}

/-- The entries after some files: one for each thread in the hash table, whose flag the last file
has left, and one for each file of the other threads. -/
structure Scanned (cap : ℕ) (s : State) (files : List File) (L : List ℕ) : Prop where
  listed : Listed s L
  fresh : ∀ ti ∈ L, ti < s.brk
  names : s.table.map Prod.fst = registered cap files
  room : s.table.length < cap → ∀ f ∈ files, f.seen = true → f.dirname ∈ registered cap files
  known : ∀ ti ∈ L, ∃ f ∈ files, f.seen = true ∧ f.dirname = (s.info ti).name
  entry : ∀ t ti, s.table.lookup t = some ti → ti ∈ L ∧ (s.info ti).name = t ∧
    (∀ tj ∈ L, (s.info tj).name = t → tj = ti) ∧
    (s.info ti).parseOk = (visits t files).getLast?.any File.accepted
  loose : ∀ t, s.table.lookup t = none →
    ((∃ ti ∈ L, (s.info ti).name = t ∧ (s.info ti).parseOk = true) ↔
      (visits t files).any File.accepted = true)

theorem initial_scanned (cap : ℕ) : Scanned cap .initial [] [] where
  listed := ⟨List.nodup_nil, rfl, rfl⟩
  fresh := by simp
  names := rfl
  room := by simp
  known := by simp
  entry := by simp [State.initial]
  loose := by simp [visits]

theorem Scanned.mem_registered (h : Scanned cap s files L) :
    t ∈ registered cap files ↔ ∃ ti, s.table.lookup t = some ti := by
  rw [← h.names, ← Option.isSome_iff_exists, ← Option.ne_none_iff_isSome, ne_eq,
    List.lookup_eq_none_iff]
  simp

theorem Scanned.not_registered (h : Scanned cap s files L) (hnone : s.table.lookup t = none) :
    t ∉ registered cap files := by
  rw [h.mem_registered, hnone]
  rintro ⟨ti, hti⟩
  exact Option.some_ne_none ti hti.symm

theorem Scanned.length_registered (h : Scanned cap s files L) :
    s.table.length = (registered cap files).length := by
  rw [← h.names, List.length_map]

/-- A file that is passed over changes nothing. -/
theorem Scanned.unseen (h : Scanned cap s files L) (hf : f.seen = false) :
    Scanned cap s (files ++ [f]) L := by
  have hreg : registered cap (files ++ [f]) = registered cap files := by
    simp [registered_concat, registerOne, hf]
  constructor
  · exact h.listed
  · exact h.fresh
  · rw [hreg, h.names]
  · intro hroom g hg hseen
    rw [hreg]
    rcases List.mem_append.mp hg with hg | hg
    · exact h.room hroom g hg hseen
    · rw [List.mem_singleton.mp hg, hf] at hseen
      exact absurd hseen Bool.false_ne_true
  · intro ti hti
    obtain ⟨g, hg, hrest⟩ := h.known ti hti
    exact ⟨g, List.mem_append_left _ hg, hrest⟩
  · intro t ti hlookup
    rw [visits_unseen hf]
    exact h.entry t ti hlookup
  · intro t hlookup
    rw [visits_unseen hf]
    exact h.loose t hlookup

/-- The flag of a thread in the hash table is overwritten. -/
theorem Scanned.hit {new : ThreadInfo} (h : Scanned cap s files L) (hf : f.seen = true)
    (hlookup : s.table.lookup f.dirname = some ti) (hname : new.name = (s.info ti).name)
    (hok : new.parseOk = f.accepted) :
    Scanned cap { s with info := Function.update s.info ti new } (files ++ [f]) L := by
  obtain ⟨htiL, htiname, huniq, -⟩ := h.entry _ _ hlookup
  have hnames (tj : ℕ) : (Function.update s.info ti new tj).name = (s.info tj).name := by
    by_cases htj : tj = ti
    · rw [htj, Function.update_self, hname]
    · rw [Function.update_of_ne htj]
  have hmem : f.dirname ∈ registered cap files := h.mem_registered.mpr ⟨ti, hlookup⟩
  have hreg : registered cap (files ++ [f]) = registered cap files := by
    simp [registered_concat, registerOne, hmem]
  constructor
  · exact ⟨h.listed.nodup, h.listed.path, h.listed.count⟩
  · exact h.fresh
  · rw [hreg]
    exact h.names
  · intro hroom g hg hseen
    rw [hreg]
    rcases List.mem_append.mp hg with hg | hg
    · exact h.room hroom g hg hseen
    · rwa [List.mem_singleton.mp hg]
  · intro tj htj
    obtain ⟨g, hg, hseen, hdir⟩ := h.known tj htj
    exact ⟨g, List.mem_append_left _ hg, hseen, hdir.trans (hnames tj).symm⟩
  · intro t tj htj
    obtain ⟨htjL, htjname, hother, hflag⟩ := h.entry t tj htj
    refine ⟨htjL, (hnames tj).trans htjname, ?_, ?_⟩
    · intro tk htk hname
      exact hother tk htk ((hnames tk).symm.trans hname)
    · show (Function.update s.info ti new tj).parseOk = _
      by_cases hdir : f.dirname = t
      · obtain rfl : ti = tj := Option.some.inj (hlookup.symm.trans (hdir ▸ htj))
        rw [Function.update_self, hok, visits_concat, if_pos ⟨hf, hdir⟩, List.getLast?_concat]
        rfl
      · have hne : tj ≠ ti := by
          rintro rfl
          exact hdir (htiname.symm.trans htjname)
        rw [Function.update_of_ne hne, visits_other hdir]
        exact hflag
  · intro t hnone
    dsimp only at hnone ⊢
    have hdir : f.dirname ≠ t := by
      rintro rfl
      rw [hlookup] at hnone
      exact absurd hnone (Option.some_ne_none ti)
    rw [visits_other hdir, ← h.loose t hnone]
    have hkeep (tj : ℕ) : ((Function.update s.info ti new tj).name = t ∧
        (Function.update s.info ti new tj).parseOk = true) ↔
        ((s.info tj).name = t ∧ (s.info tj).parseOk = true) := by
      by_cases htj : tj = ti
      · subst htj
        rw [Function.update_self, hname, htiname]
        simp [hdir]
      · rw [Function.update_of_ne htj]
    simp only [hkeep]

theorem lookup_hsearchEnter {table : List (String × ℕ)} {key : String} {data : ℕ}
    (hnone : table.lookup key = none) (t : String) :
    (hsearchEnter cap table key data).lookup t =
      if table.length < cap ∧ key = t then some data else table.lookup t := by
  unfold hsearchEnter
  by_cases hroom : table.length < cap
  · by_cases hkey : key = t
    · subst hkey
      simp [hroom, List.lookup_append, hnone]
    · have hbeq : (t == key) = false := by simpa using Ne.symm hkey
      simp [hroom, hkey, List.lookup_append, List.lookup_cons, hbeq]
  · simp [hroom]

/-- A new entry in front of the others. -/
theorem Listed.push (h : Listed s L) (hL : ti ∉ L) (info : ℕ → ThreadInfo) (brk : ℕ)
    (table : List (String × ℕ)) :
    Listed ⟨info, Function.update s.next ti s.threadList, some ti, s.threadNr + 1, brk, table⟩
      (ti :: L) := by
  refine ⟨List.nodup_cons.mpr ⟨hL, h.nodup⟩, ⟨rfl, ?_⟩, ?_⟩
  · dsimp only
    rw [Function.update_self]
    exact h.path.congr fun x hx => Function.update_of_ne (ne_of_mem_of_not_mem hx hL) ..
  · show s.threadNr + 1 = L.length + 1
    rw [h.count]

/-- Either the new entry, or one of the others. -/
theorem exists_push {info : ℕ → ThreadInfo} {new : ThreadInfo} (hL : ti ∉ L)
    (p : ThreadInfo → Prop) : (∃ tj ∈ ti :: L, p (Function.update info ti new tj)) ↔
      p new ∨ ∃ tj ∈ L, p (info tj) := by
  have hold {tj : ℕ} (htj : tj ∈ L) : Function.update info ti new tj = info tj :=
    Function.update_of_ne (ne_of_mem_of_not_mem htj hL) ..
  constructor
  · rintro ⟨tj, htj, hp⟩
    rcases List.mem_cons.mp htj with rfl | htj
    · exact .inl (by rwa [Function.update_self] at hp)
    · exact .inr ⟨tj, htj, by rwa [hold htj] at hp⟩
  · rintro (hp | ⟨tj, htj, hp⟩)
    · exact ⟨ti, List.mem_cons_self, by rwa [Function.update_self]⟩
    · exact ⟨tj, List.mem_cons_of_mem ti htj, by rwa [hold htj]⟩

/-- While the hash table has room, an entry belongs to a thread that is in it. -/
theorem Scanned.name_ne (h : Scanned cap s files L) (hroom : s.table.length < cap)
    (ht : t ∉ registered cap files) (hti : ti ∈ L) : (s.info ti).name ≠ t := by
  rintro rfl
  obtain ⟨g, hg, hseen, hdir⟩ := h.known ti hti
  exact ht (hdir ▸ h.room hroom g hg hseen)

/-- A thread that is not in the hash table gets a new entry, and a place there if it has room. -/
theorem Scanned.miss {new : ThreadInfo} (h : Scanned cap s files L) (hf : f.seen = true)
    (hlookup : s.table.lookup f.dirname = none) (hname : new.name = f.dirname)
    (hok : new.parseOk = f.accepted) :
    Scanned cap
      ⟨Function.update s.info s.brk new, Function.update s.next s.brk s.threadList, some s.brk,
        s.threadNr + 1, s.brk + 1, hsearchEnter cap s.table f.dirname s.brk⟩
      (files ++ [f]) (s.brk :: L) := by
  have hbrk : s.brk ∉ L := fun hm => lt_irrefl _ (h.fresh _ hm)
  have hold {tj : ℕ} (htj : tj ∈ L) : Function.update s.info s.brk new tj = s.info tj :=
    Function.update_of_ne (ne_of_mem_of_not_mem htj hbrk) ..
  have hnot := h.not_registered hlookup
  have hreg : registered cap (files ++ [f]) =
      if s.table.length < cap then registered cap files ++ [f.dirname]
      else registered cap files := by
    simp [registered_concat, registerOne, hf, hnot, h.length_registered]
  have hlook (t : String) : (hsearchEnter cap s.table f.dirname s.brk).lookup t =
      if s.table.length < cap ∧ f.dirname = t then some s.brk else s.table.lookup t :=
    lookup_hsearchEnter hlookup t
  constructor
  · exact h.listed.push hbrk _ _ _
  · intro tj htj
    rcases List.mem_cons.mp htj with rfl | htj
    · exact Nat.lt_succ_self _
    · exact Nat.lt_succ_of_lt (h.fresh tj htj)
  · rw [hreg]
    unfold hsearchEnter
    split_ifs
    · rw [List.map_append, h.names]
      rfl
    · exact h.names
  · intro hroom g hg hseen
    have hlt : s.table.length < cap := by
      by_contra hfull
      simp only [hsearchEnter, hfull, if_false] at hroom
    rw [hreg, if_pos hlt]
    rcases List.mem_append.mp hg with hg | hg
    · exact List.mem_append_left _ (h.room hlt g hg hseen)
    · rw [List.mem_singleton.mp hg]
      exact List.mem_append_right _ (List.mem_singleton_self _)
  · intro tj htj
    dsimp only
    rcases List.mem_cons.mp htj with rfl | htj
    · exact ⟨f, by simp, hf, by rw [Function.update_self, hname]⟩
    · obtain ⟨g, hg, hrest⟩ := h.known tj htj
      rw [hold htj]
      exact ⟨g, List.mem_append_left _ hg, hrest⟩
  · intro t tj htj
    dsimp only at htj ⊢
    rw [hlook] at htj
    split_ifs at htj with hnew
    · obtain ⟨hroom, rfl⟩ := hnew
      obtain rfl : s.brk = tj := Option.some.inj htj
      refine ⟨List.mem_cons_self, ?_, ?_, ?_⟩
      · rw [Function.update_self, hname]
      · intro tk htk htkname
        rcases List.mem_cons.mp htk with rfl | htk
        · rfl
        · rw [hold htk] at htkname
          exact absurd htkname (h.name_ne hroom hnot htk)
      · rw [Function.update_self, hok, visits_concat, if_pos ⟨hf, rfl⟩, List.getLast?_concat]
        rfl
    · obtain ⟨htjL, htjname, hother, hflag⟩ := h.entry t tj htj
      have hdir : f.dirname ≠ t := by
        rintro rfl
        rw [hlookup] at htj
        exact absurd htj.symm (Option.some_ne_none tj)
      refine ⟨List.mem_cons_of_mem _ htjL, ?_, ?_, ?_⟩
      · rw [hold htjL, htjname]
      · intro tk htk htkname
        rcases List.mem_cons.mp htk with rfl | htk
        · rw [Function.update_self] at htkname
          exact absurd (hname.symm.trans htkname) hdir
        · rw [hold htk] at htkname
          exact hother tk htk htkname
      · rw [hold htjL, visits_other hdir, hflag]
  · intro t hnone
    dsimp only at hnone ⊢
    rw [hlook] at hnone
    split_ifs at hnone with hnew
    rw [exists_push hbrk fun tj => tj.name = t ∧ tj.parseOk = true, hname, hok]
    by_cases hdir : f.dirname = t
    · subst hdir
      rw [visits_concat, if_pos ⟨hf, rfl⟩, List.any_append, Bool.or_eq_true, ← h.loose _ hlookup]
      simp [or_comm]
    · rw [visits_other hdir, ← h.loose t hnone]
      simp [hdir]

/-- One file. -/
theorem Scanned.step (h : Scanned cap s files L) (f : File) :
    ∃ L', Scanned cap (scanThread cap s f).1 (files ++ [f]) L' := by
  by_cases hf : f.seen = true
  · obtain ⟨new, heq, hname, hok⟩ := scanThread_seen cap s hf
    rw [heq]
    cases hlookup : s.table.lookup f.dirname with
    | none =>
      simp only [findEntry, hlookup, Function.update_self] at hname ⊢
      rw [Function.update_idem]
      exact ⟨_, h.miss hf hlookup hname hok⟩
    | some ti =>
      simp only [findEntry, hlookup] at hname ⊢
      exact ⟨L, h.hit hf hlookup hname hok⟩
  · rw [Bool.not_eq_true] at hf
    rw [scanThread_unseen hf]
    exact ⟨L, h.unseen hf⟩

/-- All files, in any order. -/
theorem scanAll_scanned (h : Scanned cap s files L) (more : List File) :
    ∃ L', Scanned cap (scanAll cap s more) (files ++ more) L' := by
  induction more generalizing s files L with
  | nil => exact ⟨L, by simpa [scanAll] using h⟩
  | cons f more ih =>
    obtain ⟨L₁, h₁⟩ := h.step f
    obtain ⟨L₂, h₂⟩ := ih h₁
    exact ⟨L₂, by simpa [scanAll] using h₂⟩

/-- A thread in the hash table is recognized by its last file, any other one by each of its
files. -/
theorem Scanned.recognized_iff (h : Scanned cap s files L) (t : String) :
    Recognized s t ↔ if t ∈ registered cap files
      then (visits t files).getLast?.any File.accepted = true
      else (visits t files).any File.accepted = true := by
  unfold Recognized
  rw [walk_of_path h.listed.path h.listed.count.ge]
  cases hlookup : s.table.lookup t with
  | none =>
    rw [if_neg (h.not_registered hlookup)]
    exact h.loose t hlookup
  | some ti =>
    obtain ⟨hti, hname, huniq, hflag⟩ := h.entry t ti hlookup
    rw [if_pos (h.mem_registered.mpr ⟨ti, hlookup⟩), ← hflag]
    constructor
    · rintro ⟨tj, htj, htjname, htjok⟩
      rwa [huniq tj htj htjname] at htjok
    · exact fun hok => ⟨ti, hti, hname, hok⟩

end Entries

section Verdict

variable {cap : ℕ} {files : List File} {t : String} {f : File}

theorem accepted_seen (h : f.accepted = true) : f.seen = true := by
  rw [File.accepted, Bool.and_eq_true] at h
  exact h.1

theorem seen_attr (h : f.seen = true) : f.attr = true := by
  simp only [File.seen, decide_eq_true_eq] at h
  exact h.1

theorem mem_visits : f ∈ visits t files ↔ f ∈ files ∧ f.seen = true ∧ f.dirname = t := by
  simp [visits]

theorem scanAll_recognized_iff (cap : ℕ) (files : List File) (t : String) :
    Recognized (scanAll cap .initial files) t ↔ if t ∈ registered cap files
      then (visits t files).getLast?.any File.accepted = true
      else (visits t files).any File.accepted = true := by
  obtain ⟨L, h⟩ := scanAll_scanned (initial_scanned cap) files
  exact h.recognized_iff t

/-- A thread is recognized when all of its files are accepted and there is one. -/
theorem recognized_of_accepted (hf : f ∈ visits t files)
    (hall : ∀ g ∈ visits t files, g.accepted = true) :
    Recognized (scanAll cap .initial files) t := by
  rw [scanAll_recognized_iff]
  split_ifs
  · have hne : visits t files ≠ [] := List.ne_nil_of_mem hf
    rw [List.getLast?_eq_some_getLast hne]
    exact hall _ (List.getLast_mem hne)
  · exact List.any_eq_true.mpr ⟨f, hf, hall f hf⟩

/-- It is not when the files that decide are refused. -/
theorem not_recognized_iff : ¬ Recognized (scanAll cap .initial files) t ↔
    if t ∈ registered cap files then ∀ f ∈ (visits t files).getLast?, f.accepted = false
    else ∀ f ∈ visits t files, f.accepted = false := by
  rw [scanAll_recognized_iff]
  split_ifs
  · cases (visits t files).getLast? <;> simp
  · simp

end Verdict

/-- One order of the files. -/
theorem faithful_iff (cap : ℕ) (files : List File) : Faithful cap files ↔ Settled cap files := by
  constructor
  · intro h t
    by_cases hall : ∀ f ∈ files, f.attr = true → f.dirname = t → f.accepted = true
    · exact .inl hall
    · apply Or.inr
      rw [← not_recognized_iff]
      intro hrec
      simp only [not_forall] at hall
      obtain ⟨f, hf, hattr, hdir, hnot⟩ := hall
      exact hnot ((h t ⟨f, hf, hattr, hdir⟩).mp hrec f hf hattr hdir)
  · rintro h t ⟨f, hf, hattr, hdir⟩
    constructor
    · intro hrec
      apply (h t).resolve_right
      rw [← not_recognized_iff]
      exact not_not_intro hrec
    · intro hall
      have hvisit : f ∈ visits t files :=
        mem_visits.mpr ⟨hf, accepted_seen (hall f hf hattr hdir), hdir⟩
      apply recognized_of_accepted hvisit
      intro g hg
      obtain ⟨hg, hseen, hgdir⟩ := mem_visits.mp hg
      exact hall g hg (seen_attr hseen) hgdir

theorem Unanimous.settled {cap : ℕ} {files files' : List File} (h : Unanimous files)
    (hp : files'.Perm files) : Settled cap files' := by
  intro t
  refine (h t).imp (fun hall f hf => hall f (hp.subset hf)) fun hnone => ?_
  have hnone' : ∀ f ∈ visits t files', f.accepted = false := by
    intro f hf
    obtain ⟨hf, hseen⟩ := mem_visits.mp hf
    exact hnone f (mem_visits.mpr ⟨hp.subset hf, hseen⟩)
  split_ifs
  · exact fun f hf => hnone' f (List.mem_of_getLast? hf)
  · exact hnone'

/-- A good file that comes last, or that has an entry of its own, decides. -/
theorem unanimous_of_settled {cap : ℕ} {files : List File}
    (h : ∀ files' : List File, files'.Perm files → Settled cap files') : Unanimous files := by
  intro t
  by_contra hnot
  rw [not_or] at hnot
  obtain ⟨hall, hsome⟩ := hnot
  simp only [not_forall, Bool.not_eq_false] at hsome
  obtain ⟨f, hf, hacc⟩ := hsome
  obtain ⟨hmem, hseen, hdir⟩ := mem_visits.mp hf
  have hp : (files.erase f ++ [f]).Perm files :=
    (List.perm_append_singleton f _).trans (List.perm_cons_erase hmem).symm
  have hvisits : visits t (files.erase f ++ [f]) = visits t (files.erase f) ++ [f] := by
    rw [visits_concat, if_pos ⟨hseen, hdir⟩]
  rcases h _ hp t with hall' | hlast
  · exact hall fun g hg => hall' g (hp.symm.subset hg)
  · rw [hvisits] at hlast
    have hrefused : f.accepted = false := by
      split_ifs at hlast
      · exact hlast f List.getLast?_concat
      · exact hlast f (by simp)
    rw [hacc] at hrefused
    exact absurd hrefused Bool.noConfusion

/-- Threads are recognized as they should be when the files that decide about the others are
refused, and only then; for all orders, when there are no two opinions about any thread. -/
theorem scanAll_faithful_iff (cap : ℕ) (files : List File) :
    (Faithful cap files ↔ Settled cap files) ∧
      ((∀ files' : List File, files'.Perm files → Faithful cap files') ↔ Unanimous files) := by
  refine ⟨faithful_iff cap files, ?_⟩
  constructor
  · intro h
    exact unanimous_of_settled fun files' hp => (faithful_iff cap files').mp (h files' hp)
  · intro h files' hp
    exact (faithful_iff cap files').mpr (h.settled hp)

/-- A file with a number the kernel did not write, and a good one, of the same thread. -/
def staleFiles : List File :=
  [⟨"pid", "rtk", .file, 2, 4096, some "stale\n".toList⟩,
    ⟨"timeout", "rtk", .file, 2, 4096, some "0\n".toList⟩]

/-- The good file comes last, and the thread is listed. The other way around it is not. -/
theorem stale_thread_listed :
    Recognized (scanAll 2053 .initial staleFiles) "rtk" ∧
      ¬ Recognized (scanAll 2053 .initial staleFiles.reverse) "rtk" ∧
      ¬ Faithful 2053 staleFiles := by
  have hlisted : Recognized (scanAll 2053 .initial staleFiles) "rtk" := by decide
  refine ⟨hlisted, by decide, ?_⟩
  intro h
  have hthread : ∃ f ∈ staleFiles, f.attr = true ∧ f.dirname = "rtk" := by decide
  have hall := (h "rtk" hthread).mp hlisted
  exact absurd hall (by decide)

end Libevl.EvlPs
