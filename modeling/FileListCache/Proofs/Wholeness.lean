/-
  FileListCache.Proofs.Wholeness

  Fetching is all or nothing. Whatever an address is, in whichever pieces its document arrives and
  wherever it breaks off, the file with the final name is either the whole document or what it was
  before (`Fetcher.fetch_whole`); besides it only the entry that holds what has arrived changes.

  The proof looks at what stands in the way of that entry. Nothing or a file lets the transfer go
  on, and then `Fetcher.fetch_ends` says all, since the document stays the same while it arrives.
  A directory or a device lets nothing through.
-/

import FileListCache.Proofs.Confinement
import FileListCache.Proofs.Results
import FileListCache.Proofs.Sections

namespace FileListCache

open Disk (Aims Writer locate look)
open World (Works Same)

variable {h : Host} {w : World} {t t₀ : Tree} {l lp lo c : Location}

/-! ## What stands at a place -/

namespace Disk

/-- What is read at a place is the content of what stands there. -/
theorem contentOf_place {node : Node} (hnode : t.find? l = some node) :
    contentOf t (.place l) = contentIn node := by
  unfold contentOf
  cases node <;> simp only [hnode, contentIn]

/-- A device is opened without a trace, and no file grows behind it. -/
theorem create_device {p : String} (ha : Aims h w.tree p l)
    (hl : w.tree.find? l = some .fullDevice) :
    Ends w (create h p) fun r w' => Same w w' ∧ ∀ sink, r = .ok sink → sink.place = none := by
  unfold create
  apply ends_get_bind
  apply ends_except_bind
  · intro place hplace
    obtain ⟨rfl, -⟩ := ha.locate_true (by simp [hl]) hplace
    rw [ha.endsInSlash]
    simp only [hl, Bool.false_eq_true, if_false]
    refine ends_askFile_bind (by simp [Makeable, askFile, hl]) (ends_pure ⟨.refl w, ?_⟩)
    rintro _ ⟨⟩
    rfl
  · exact fun e _ => ⟨.refl w, by rintro _ ⟨⟩⟩

end Disk

/-! ## Trees that differ at one place -/

namespace Tree

/-- The tree differs from `t₀` at `lp` at most, where nothing or a file stands. -/
structure AgreesBut (lp : Location) (t₀ t : Tree) : Prop where
  leaf : t.IsLeaf lp
  others : ∀ l, l ≠ lp → t.find? l = t₀.find? l

namespace AgreesBut

theorem fills (ht : AgreesBut lp t₀ t) (hlp : lp ≠ []) {s : Tree.Step} (hs : s.Fills lp) :
    AgreesBut lp t₀ (t.apply s) := by
  refine ⟨?_, fun l hl => (hs.find?_eq hlp hl).trans (ht.others l hl)⟩
  cases s with
  | put p node =>
    obtain ⟨rfl, rfl⟩ := hs
    exact .inr ⟨[], by rw [find?_put hlp, if_pos rfl]⟩
  | extend p bytes =>
    obtain rfl : p = lp := hs
    rw [IsLeaf, find?_extend, if_pos rfl]
    rcases ht.leaf with hnone | ⟨content, hfile⟩
    · exact .inl (by rw [hnone]; rfl)
    · exact .inr ⟨content ++ bytes, by rw [hfile]; rfl⟩
  | remove p => exact hs.elim
  | move source target => exact hs.elim

theorem alike (ht : AgreesBut lp t₀ t) (h₀ : t₀.IsLeaf lp) : t₀.Alike t := by
  constructor <;> intro l <;> by_cases hl : l = lp
  · exact .inr (hl ▸ ht.leaf.isDeadEnd)
  · exact .inl (ht.others l hl)
  · exact .inr (hl ▸ h₀.isDeadEnd)
  · exact .inl (ht.others l hl).symm

theorem isQuiet (ht : AgreesBut lp t₀ t) (hquiet : t₀.IsQuiet) : t.IsQuiet := by
  intro l content opens fate
  by_cases hl : l = lp
  · subst hl
    rcases ht.leaf with hnone | ⟨bytes, hfile⟩
    · simp [hnone]
    · simp [hfile]
  · rw [ht.others l hl]
    exact hquiet l content opens fate

end AgreesBut

end Tree

namespace Fetcher

variable {f : Fetcher} {url filename part : String} {u : Url} {R : Tree → Prop}

/-! ## Documents -/

/-- The document at an address can be had as a whole and consists of `bytes`: the content of a
local file, or the body of a reply that does not say that there is none. -/
inductive Offers (h : Host) (f : Fetcher) (w : World) (url : String) (bytes : Bytes) : Prop
  | file {u : Url} {path : String} (address : Url.ofText url = .ok u) (scheme : u.scheme = "file")
      (named : u.filePath? = some path) (content : Disk.reading h w.tree path = .ok bytes)
  | web {u : Url} {reply : Http.Reply} (address : Url.ofText url = .ok u)
      (scheme : u.scheme ≠ "file") (replied : (w.attempt (f.client.get h u)).1 = .ok reply)
      (status : isRefusal reply.status = false) (content : reply.body = .ok ⟨bytes, none⟩)

/-- The address is that of the local file at a place. -/
def NamesPlace (h : Host) (t : Tree) (url : String) (l : Location) : Prop :=
  ∃ u path, Url.ofText url = .ok u ∧ u.scheme = "file" ∧ u.filePath? = some path ∧
    locate h t true path = .ok l

/-- What is opened on the web is the body of a reply. -/
theorem openUrl_web (hu : u.scheme ≠ "file") :
    Gives w (f.openUrl h u) fun opened _ => ∃ reply body,
      (w.attempt (f.client.get h u)).1 = .ok reply ∧ isRefusal reply.status = false ∧
      reply.body = .ok body ∧ opened.1 = .body body := by
  unfold openUrl
  rw [if_neg hu]
  have hget : Gives w ((f.client.get h u).adapt DownloadError.network) fun reply _ =>
      (w.attempt (f.client.get h u)).1 = .ok reply := by
    apply gives_adapt
    exact fun _ hr => hr
  refine gives_bind hget fun reply w₁ hreply => ?_
  apply gives_except_bind
  intro body hbody
  split
  · exact gives_throw
  · rename_i hstatus
    exact gives_pure ⟨reply, body, hreply, by simpa using hstatus, eq_ok_of_mapError hbody, rfl⟩

/-- The disk does not matter to what is answered, so a whole answer is the document. -/
theorem offers_of_webAnswer {bytes : Bytes} (haddress : Url.ofText url = .ok u)
    (hu : u.scheme ≠ "file") (hanswer : f.webAnswer h url w.requests = some ⟨bytes, none⟩) :
    f.Offers h w url bytes := by
  rw [webAnswer, haddress] at hanswer
  dsimp only at hanswer
  rcases hopened : (({ requests := w.requests } : World).attempt (f.openUrl h u)).1 with
    e | ⟨incoming, total⟩
  · rw [hopened] at hanswer
    cases hanswer
  · obtain ⟨reply, body, hreply, hstatus, hbody, rfl⟩ := openUrl_web hu _ hopened
    rw [hopened] at hanswer
    obtain rfl : body = ⟨bytes, none⟩ := Option.some.inj hanswer
    obtain ⟨r, hr⟩ := f.client.isBlind_send (h := h) Http.Client.mostRedirects u
    have hsame := congrArg Prod.fst ((hr w).1.symm.trans (hr { requests := w.requests }).1)
    exact .web haddress hu (hsame.trans hreply) hstatus hbody

/-- What a local file sends: its content, or the error that reading it meets. -/
def sent (node : Node) : Http.Body :=
  match Disk.contentIn node with
  | .ok bytes => ⟨bytes, none⟩
  | .error e => ⟨[], some e⟩

/-- The answer of a local file, if there is one. -/
def localAnswer (h : Host) (t : Tree) (path : String) : Option Http.Body :=
  (look h t path).toOption.map sent

theorem reading_of_localAnswer {path : String} {bytes : Bytes}
    (hanswer : localAnswer h t path = some ⟨bytes, none⟩) :
    Disk.reading h t path = .ok bytes := by
  rw [Disk.reading_eq_ok]
  unfold localAnswer at hanswer
  cases hlook : look h t path with
  | error e =>
    rw [hlook] at hanswer
    cases hanswer
  | ok node =>
    rw [hlook] at hanswer
    have hsent : sent node = ⟨bytes, none⟩ := Option.some.inj hanswer
    unfold sent at hsent
    cases hcontent : Disk.contentIn node with
    | error e =>
      rw [hcontent] at hsent
      cases hsent
    | ok content =>
      rw [hcontent] at hsent
      cases hsent
      exact ⟨node, rfl, hcontent⟩

/-- The document at a local file's address is the same in all trees in which the path leads to the
same entry. -/
theorem serves_of_file {path : String} (hscheme : u.scheme = "file")
    (hpath : u.filePath? = some path) (hquiet : ∀ t, R t → t.IsQuiet)
    (hlocate : ∀ t, R t → ∀ l, locate h t true path = .ok l ↔ locate h t₀ true path = .ok l)
    (hentry : ∀ t, R t → ∀ l, locate h t₀ true path = .ok l → t.find? l = t₀.find? l) :
    f.Serves h R u fun _ => localAnswer h t₀ path := by
  intro w hw
  unfold openUrl
  rw [if_pos hscheme, hpath]
  have hundisturbed : Disk.Undisturbed h w.tree path := fun l content opens fate _ =>
    hquiet w.tree hw l content opens fate
  apply ends_adapt_bind (Disk.openRead_ends hundisturbed)
  · intro source w₁ hr
    obtain ⟨hsame, hok, -⟩ := hr
    obtain ⟨l, hl, hthere, rfl⟩ := hok source rfl
    have hl₀ := (hlocate w.tree hw l).1 hl
    obtain ⟨node, hnode⟩ := Option.ne_none_iff_exists'.1 hthere
    rw [hentry w.tree hw l hl₀] at hnode
    have hlook : look h t₀ path = .ok node := Disk.look_eq_ok.2 ⟨l, hl₀, hnode⟩
    apply ends_get_bind
    refine ends_pure ⟨hsame, fun incoming total he t ht => ?_, by rintro _ ⟨⟩⟩
    cases he
    -- Whichever tree it is read in, what was opened is this entry.
    have hnode' : t.find? l = some node := by rw [hentry t ht l hl₀, hnode]
    rw [localAnswer, hlook, Incoming.content, Disk.contentOf_place hnode']
    rfl
  · intro e w₁ hr
    obtain ⟨hsame, -, herr⟩ := hr
    refine ⟨hsame, by rintro _ _ ⟨⟩, fun _ _ => ?_⟩
    have hnone : ∀ node, look h t₀ path ≠ .ok node := by
      intro node hlook
      obtain ⟨l, hl₀, hnode⟩ := Disk.look_eq_ok.1 hlook
      have hmissing := herr e rfl l ((hlocate w.tree hw l).2 hl₀)
      rw [hentry w.tree hw l hl₀, hnode] at hmissing
      cases hmissing
    unfold localAnswer
    cases hlook : look h t₀ path with
    | error e' => rfl
    | ok node => exact absurd hlook (hnone node)

/-- While a file is made that its address does not name, a document stays what it is: there is an
answer, and one that is whole is the document. -/
theorem exists_answer (hquiet : w.tree.IsQuiet) (hleaf : w.tree.IsLeaf lp)
    (hself : ¬ NamesPlace h w.tree url lp) :
    ∃ answer, f.Answers h (Tree.AgreesBut lp w.tree) url answer ∧
      ∀ bytes, answer w.requests = some ⟨bytes, none⟩ → f.Offers h w url bytes := by
  unfold Answers
  cases haddress : Url.ofText url with
  | error e => exact ⟨fun _ => none, fun _ => rfl, by rintro _ ⟨⟩⟩
  | ok u =>
    by_cases hscheme : u.scheme = "file"
    · cases hpath : u.filePath? with
      | none =>
        refine ⟨fun _ => none, fun w _ => ?_, by rintro _ ⟨⟩⟩
        unfold openUrl
        rw [if_pos hscheme, hpath]
        exact ends_throw ⟨.refl w, by rintro _ _ ⟨⟩, fun _ _ => rfl⟩
      | some path =>
        refine ⟨fun _ => localAnswer h w.tree path, ?_, fun bytes hanswer =>
          .file haddress hscheme hpath (reading_of_localAnswer hanswer)⟩
        refine serves_of_file hscheme hpath (fun t ht => ht.isQuiet hquiet)
          (fun t ht l => Disk.locate_alike (ht.alike hleaf)) fun t ht l hl => ht.others l ?_
        rintro rfl
        exact hself ⟨u, path, haddress, hscheme, hpath, hl⟩
    · refine ⟨f.webAnswer h url, ?_, fun bytes => offers_of_webAnswer haddress hscheme⟩
      have hanswers : f.Answers h (Tree.AgreesBut lp w.tree) url (f.webAnswer h url) := by
        apply answers_of_web
        intro u' hu'
        rw [haddress] at hu'
        cases hu'
        exact hscheme
      unfold Answers at hanswers
      rwa [haddress] at hanswers

/-! ## Parts that nothing can be written to -/

/-- A directory or a device is in the way: no file can be made here. -/
def IsBlocked (t : Tree) (l : Location) : Prop :=
  t.find? l = some .directory ∨ t.find? l = some .fullDevice

/-- Where no file can be made for it nothing is received, and nothing changes. -/
theorem receive_blocked (hquiet : w.tree.IsQuiet) (hpart : Aims h w.tree part lp)
    (hblocked : IsBlocked w.tree lp) (hf : f.IsPassive) :
    Ends w (f.receive h u filename part) fun r w' =>
      w'.tree = w.tree ∧ ∃ e, r = .error e := by
  have hcreate (w₁ : World) (hsame : Same w w₁) : Ends w₁ (Disk.create h part) fun r w₂ =>
      w₂.tree = w.tree ∧ ∀ sink, r = .ok sink → sink.place = none := by
    have hpart₁ : Aims h w₁.tree part lp := by rwa [hsame.tree]
    rcases hblocked with hdir | hdevice
    · rw [← hsame.tree] at hdir ⊢
      refine ends_imp (Disk.create_ends hpart₁ fun _ => .inr (.inl hdir)) ?_
      intro r w₂ hr
      obtain ⟨hok, herr⟩ := hr
      cases r with
      | ok sink => exact absurd hdir (hok sink rfl).1.noDirectory
      | error e => exact ⟨(herr e rfl).1.tree, by rintro _ ⟨⟩⟩
    · rw [← hsame.tree] at hdevice ⊢
      exact ends_imp (Disk.create_device hpart₁ hdevice) fun r w₂ hr => ⟨hr.1.tree, hr.2⟩
  -- Without a file no step can be taken, whatever is written.
  have hstill {w₁ w₂ : World} (hworks : Works (Tree.Step.Adds none) w₁ w₂) :
      w₂.tree = w₁.tree := by
    refine hworks.induct (P := fun t => t = w₁.tree) (fun t s _ hs => ?_) rfl
    obtain ⟨p, _, hp, -⟩ := hs.exists_extend
    cases hp
  unfold receive
  apply ends_bind (openUrl_same hquiet u)
  · intro opened w₁ hsame
    obtain ⟨incoming, total⟩ := opened
    apply ends_adapt_bind (hcreate w₁ hsame)
    · intro sink w₂ hr
      obtain ⟨htree₂, hplace⟩ := hr
      have hplace : sink.place = none := hplace sink rfl
      apply ends_tell_bind
      have htree₃ := (hf ⟨filename, 0, total⟩ w₂).tree
      generalize ((f.onProgress ⟨filename, 0, total⟩).run w₂).2 = w₃ at htree₃
      apply ends_get_bind
      apply ends_bind (foldlM_takeChunk_treads hf _ ({ sink }, 0) hplace w₃)
      · intro state w₄ hr
        obtain ⟨wr, size⟩ := state
        obtain ⟨hworks₄, hstate⟩ := hr
        refine ends_imp (closing_treads (hstate _ rfl) w₄) fun r w₅ hr => ?_
        obtain ⟨hworks₅, hfile⟩ := hr
        refine ⟨by rw [hstill hworks₅, hstill hworks₄, htree₃, htree₂], ?_⟩
        cases r with
        | ok n => exact absurd rfl (hfile n rfl)
        | error e => exact ⟨e, rfl⟩
      · exact fun e w₄ hr => ⟨by rw [hstill hr.1, htree₃, htree₂], e, rfl⟩
    · exact fun e w₂ hr => ⟨hr.1, _, rfl⟩
  · exact fun e w₁ hsame => ⟨hsame.tree, e, rfl⟩

/-- A fetch fails there, and removes what is in the way. -/
theorem fetch_blocked (hquiet : w.tree.IsQuiet) (hpart : Aims h w.tree (f.partPath filename) lp)
    (hlp : lp ≠ []) (hblocked : IsBlocked w.tree lp) (hf : f.IsPassive) :
    Ends w (f.fetch h url filename) fun r w' => (∃ e, r = .error e) ∧
      ∀ l, ¬ lp <+: l → w'.tree.find? l = w.tree.find? l := by
  unfold fetch
  cases Url.ofText url with
  | error e => exact ends_throw ⟨⟨_, rfl⟩, fun _ _ => rfl⟩
  | ok u =>
    apply ends_note_bind
    intro w₀ hsame₀
    rw [← hsame₀.tree] at hquiet hpart hblocked ⊢
    apply ends_bind (R := fun r w' => (∃ e, r = .error e) ∧
      ∀ l, ¬ lp <+: l → w'.tree.find? l = w₀.tree.find? l)
    · apply ends_catch (receive_blocked hquiet hpart hblocked hf)
      · intro n w₁ hr
        obtain ⟨-, e, he⟩ := hr
        cases he
      · intro e w₁ hr
        obtain ⟨htree₁, -⟩ := hr
        rw [← htree₁] at hpart ⊢
        apply Files.ends_noted
        refine ends_imp (Files.remove_ends hpart) ?_
        intro r w₂ hremove w₃ hsame₃
        refine ends_throw ⟨⟨e, rfl⟩, fun l hl => ?_⟩
        rw [hsame₃.tree, hremove.1.find?_of_clears hlp hl]
    · intro n w₁ hr
      obtain ⟨⟨e, he⟩, -⟩ := hr
      cases he
    · exact fun e w₁ hr => ⟨⟨e, rfl⟩, hr.2⟩

/-! ## All or nothing -/

/-- What a fetch comes to in a directory, whose files with the final name and with what has arrived
have the places `lo` and `lp`. -/
structure AllOrNothing (h : Host) (f : Fetcher) (url filename : String) (lp lo : Location)
    (w : World) (r : Except DownloadError String) (t' : Tree) : Prop where
  /-- A success gives the path of the final file, which is the whole document. -/
  whole : ∀ path, r = .ok path → path = f.outputPath filename ∧
    ∃ bytes, f.Offers h w url bytes ∧ t'.find? lo = some (.file bytes) ∧ t'.find? lp = none ∧
      ((∀ target, w.tree.find? lo ≠ some (.link target)) → look h t' path = .ok (.file bytes))
  /-- A failure leaves the final file as it was. -/
  nothing : ∀ e, r = .error e → t'.find? lo = w.tree.find? lo
  /-- In both cases no other entry changes. -/
  others : ∀ l, l ≠ lo → ¬ lp <+: l → t'.find? l = w.tree.find? l

/-- Where nothing or a file stands in the way. -/
theorem fetch_leaf (hl : Landing h w.tree (f.partPath filename) (f.outputPath filename) lp lo)
    (hbare : w.tree.IsBare lp) (hquiet : w.tree.IsQuiet) (hf : f.IsPassive)
    (hself : ¬ NamesPlace h w.tree url lp) :
    Ends w (f.fetch h url filename) fun r w' =>
      AllOrNothing h f url filename lp lo w r w'.tree := by
  have hlp : lp ≠ [] := hl.apart.ne_nil
  obtain ⟨answer, hanswers, hoffers⟩ := exists_answer (f := f) hquiet hl.leaf hself
  refine ends_imp (fetch_ends hl hf (fun t s ht hs => ht.fills hlp hs)
    ⟨hl.leaf, fun _ _ => rfl⟩ hanswers) fun r w' hr => ?_
  obtain ⟨hok, herr⟩ := hr
  cases r with
  | ok path =>
    obtain ⟨rfl, w₁, bytes, hanswer, hworks, hfile, hclear, htakes⟩ := hok path rfl
    have hbare₁ : w₁.tree.IsBare lp := fun r hr => by
      rw [hworks.find?_of_fills hlp (by simpa using hr), hbare r hr]
    have hfind (l : Location) : w'.tree.find? l =
        if l = lo then some (.file bytes) else if lp <+: l then none else w₁.tree.find? l := by
      rw [htakes.tree, Tree.find?_move hl.apart hbare₁, hfile]
    have hlo : w'.tree.find? lo = some (.file bytes) := by rw [hfind, if_pos rfl]
    refine ⟨fun _ he => ?_, by rintro _ ⟨⟩, fun l hlo hbelow => ?_⟩
    · cases he
      refine ⟨rfl, bytes, hoffers bytes hanswer, hlo, ?_, fun hlink => ?_⟩
      · rw [hfind, if_neg hl.apart.ne, if_pos List.prefix_rfl]
      · -- No path led through what the document has replaced, so its own leads there.
        have hdead : w₁.tree.IsDeadEnd lo := by
          rw [Tree.IsDeadEnd, hworks.find?_of_fills hlp hl.apart.symm.ne]
          exact ⟨hclear.noDirectory, hlink⟩
        have halike : w.tree.Alike w'.tree := by
          rw [htakes.tree]
          exact (hworks.alike_of_fills hlp hl.leaf.isDeadEnd).trans
            (Tree.alike_move hl.apart hbare₁ hfile hdead)
        refine Disk.look_eq_ok.2 ⟨lo, ?_, hlo⟩
        exact Disk.locate_true_of_false (hl.output.alike halike hclear.output) (by simp [hlo])
    · rw [hfind, if_neg hlo, if_neg hbelow]
      exact hworks.find?_of_fills hlp fun he => hbelow (he ▸ List.prefix_rfl)
  | error e =>
    obtain ⟨⟨w₁, hfills, hclears⟩, -⟩ := herr e rfl
    have hfind (l : Location) (hbelow : ¬ lp <+: l) : w'.tree.find? l = w.tree.find? l := by
      rw [hclears.find?_of_clears hlp hbelow]
      exact hfills.find?_of_fills hlp fun he => hbelow (he ▸ List.prefix_rfl)
    exact ⟨by rintro _ ⟨⟩, fun _ _ => hfind lo hl.apart.1, fun l _ hbelow => hfind l hbelow⟩

/-- A fetch into a directory is all or nothing. Whatever the address is, in whichever pieces its
document arrives, wherever that breaks off and whatever the disk refuses: a success has put the
whole document under the given name, and a failure has left that name alone. Besides it only the
entry that holds what has arrived changes, with what was below; that entry must not be a link, nor
be what the address names. -/
theorem fetch_whole (hname : Path.IsName filename) (hslash : '/' ∉ filename.toList)
    (hcache : locate h w.tree true f.cache = .ok c)
    (hdirectory : w.tree.find? c = some .directory) (hroot : w.tree.IsRooted)
    (hquiet : w.tree.IsQuiet) (hf : f.IsPassive)
    (hlink : ∀ target, w.tree.find? (c ++ [filename ++ ".part"]) ≠ some (.link target))
    (hself : ¬ NamesPlace h w.tree url (c ++ [filename ++ ".part"])) :
    Ends w (f.fetch h url filename) fun r w' =>
      AllOrNothing h f url filename (c ++ [filename ++ ".part"]) (c ++ [filename]) w r
        w'.tree := by
  have hpartName : Path.IsName (filename ++ ".part") :=
    Path.isName_of_getLast? (c := 't') (by simp) (by decide)
  have hpart : Aims h w.tree (f.partPath filename) (c ++ [filename ++ ".part"]) :=
    Disk.aims_join hcache hdirectory hpartName (by simp [hslash])
  have houtput : Aims h w.tree (f.outputPath filename) (c ++ [filename]) :=
    Disk.aims_join hcache hdirectory hname hslash
  have hapart : Tree.Apart (c ++ [filename ++ ".part"]) (c ++ [filename]) := by
    apply Tree.apart_concat
    intro he
    have hlists := congrArg String.toList he
    simp at hlists
  have hcases : IsBlocked w.tree (c ++ [filename ++ ".part"]) ∨
      w.tree.IsLeaf (c ++ [filename ++ ".part"]) := by
    unfold IsBlocked Tree.IsLeaf
    rcases hnode : w.tree.find? (c ++ [filename ++ ".part"]) with - | (bytes | - | target | - | ⟨_⟩)
    · exact .inr (.inl rfl)
    · exact .inr (.inr ⟨bytes, rfl⟩)
    · exact .inl (.inl rfl)
    · exact absurd hnode (hlink target)
    · exact .inl (.inr rfl)
    · exact absurd hnode (hquiet _ _ _ _)
  rcases hcases with hblocked | hleaf
  · refine ends_imp (fetch_blocked hquiet hpart hapart.ne_nil hblocked hf) fun r w' hr => ?_
    obtain ⟨⟨e, rfl⟩, hothers⟩ := hr
    exact ⟨by rintro _ ⟨⟩, fun _ _ => hothers _ hapart.1, fun l _ hbelow => hothers l hbelow⟩
  · have hbare := hroot.isBare hleaf.isDeadEnd.1
    exact fetch_leaf ⟨hpart, houtput, hapart, hleaf⟩ hbare hquiet hf hself

section Mirrors

open Sync

/-- In the place of an old list, what comes whole is stored, and what breaks off is not. -/
theorem fetch_whole_mirrors : (∃ w',
    oldCache.attempt ((fetcher {} coreGoal false).fetch (mirrors [1, 2, 3] [])
      (coreGoal.url core "http://mirror") "core.files") = (.ok "/cache/core.files", w') ∧
    w'.tree.find? ["cache", "core.files"] = some (.file [1, 2, 3]) ∧
    w'.tree.find? ["cache", "core.files.part"] = none) ∧
    Ends oldCache ((fetcher {} coreGoal false).fetch (mirrors [1, 2, 3] [])
      (coreGoal.url fallingBack "http://broken") "core.files") fun r w' =>
        (∃ e, r = .error e) ∧ w'.tree.find? ["cache", "core.files"] = some (.file [0]) := by
  have hnone : oldCache.tree.find? (["cache"] ++ ["core.files" ++ ".part"]) = none := by decide
  have hself {url host file : String} (hurl : Url.ofText url = .ok (address host file)) :
      ¬ NamesPlace (mirrors [1, 2, 3] []) oldCache.tree url
        (["cache"] ++ ["core.files" ++ ".part"]) := by
    rintro ⟨u, _, hu, hscheme, -⟩
    cases hurl.symm.trans hu
    exact absurd hscheme (show "http" ≠ "file" by decide)
  have hfetch {url host file : String} (hurl : Url.ofText url = .ok (address host file)) :=
    fetch_whole (show Path.IsName "core.files" by decide) (by decide) locate_oldCache (by decide)
      oldCache_isRooted oldCache_isQuiet (fetcher_isPassive {} coreGoal false)
      (fun _ => by rw [hnone]; rintro ⟨⟩) (hself hurl)
  -- An address on the web offers the body of the reply that there is.
  have hoffered {url host file : String} {reply : Http.Reply} {bytes : Bytes}
      (hurl : Url.ofText url = .ok (address host file))
      (haddress : Http.Address.check (address host file).toText = .ok ())
      (hreply : (mirrors [1, 2, 3] []).answer.reply []
        (({} : Http.Client).request (address host file)) = some reply)
      (hstays : Http.Client.redirects.contains reply.status = false)
      (hoffers : (fetcher {} coreGoal false).Offers (mirrors [1, 2, 3] []) oldCache url bytes) :
      reply.body = .ok ⟨bytes, none⟩ := by
    cases hoffers with
    | file hu hscheme =>
      cases hurl.symm.trans hu
      exact absurd hscheme (show "http" ≠ "file" by decide)
    | web hu _ hreplied _ hcontent =>
      cases hurl.symm.trans hu
      have hget : Ends oldCache _ _ := Http.Client.get_of_reply haddress hreply hstays
      cases hget.symm.trans hreplied
      exact hcontent
  constructor
  · have hcan : (fetcher {} coreGoal false).CanFetch (mirrors [1, 2, 3] []) oldCache
        (coreGoal.url fallingBack "http://mirror") "core.files" :=
      (canFetch_mirrors (by decide) (by decide)).2 ⟨[1, 2, 3], webAnswer_core⟩
    obtain ⟨path, w', hfetched⟩ := hcan
    obtain ⟨rfl, bytes, hoffers, hfile, hpart, -⟩ :=
      ((ends_iff hfetched).1 (hfetch ofText_core)).whole path rfl
    cases hoffered ofText_core (by decide +kernel) rfl rfl hoffers
    exact ⟨w', hfetched, hfile, hpart⟩
  · refine ends_imp (hfetch ofText_broken) fun r w' hr => ?_
    cases r with
    | ok path =>
      obtain ⟨-, bytes, hoffers, -⟩ := hr.whole path rfl
      cases body_cutShort.symm.trans (hoffered ofText_broken (by decide +kernel) rfl rfl hoffers)
    | error e => exact ⟨⟨e, rfl⟩, hr.nothing e rfl⟩

end Mirrors

end Fetcher

end FileListCache
