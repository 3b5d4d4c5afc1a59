import DesignCompiler.Files.Disk
import DesignCompiler.Proofs.Files.Paths
import DesignCompiler.Proofs.Outcome

/-!
# DesignCompiler — where paths lead

There are no links, so where a path leads is fixed by its names alone; the files and folders only say
whether it gets there. What a path leads to stays there as long as folders stay folders.

* `Disk.place`, `Disk.target` — the location that names, and a path, lead to;
* `walk_place`, `walk_spot` — what a walk finds is there, at this location;
* `walk_again` — the same walk on a disk that has all the folders.
-/

namespace DesignCompiler

/-- Where something, or nothing, is. -/
def Spot.location : Spot → Location
  | .folder l => l
  | .file l => l
  | .vacant l => l

namespace Disk

/-- The location that names lead to from another one. -/
def place (l : Location) : List String → Location
  | [] => l
  | n :: ns => if n = ".." then place l.dropLast ns else place (l ++ [n]) ns

/-- The location that a path leads to. -/
def target (d : Disk) (p : Path) : Location :=
  place (d.start p) p.names

theorem place_append (l : Location) (a b : List String) :
    place l (a ++ b) = place (place l a) b := by
  induction a generalizing l with
  | nil => rfl
  | cons n a ih =>
    rw [List.cons_append, place, place, ih, ih]
    split <;> rfl

/-- Only two dots lead back up. -/
theorem place_of_notMem {ns : List String} (h : ".." ∉ ns) (l : Location) :
    place l ns = l ++ ns := by
  induction ns generalizing l with
  | nil => rw [place, List.append_nil]
  | cons n ns ih =>
    rw [List.mem_cons, not_or] at h
    rw [place, if_neg (Ne.symm h.1), ih h.2, List.append_assoc, List.singleton_append]

theorem place_fileNames {ns : List String} (h : ∀ n ∈ ns, IsFileName n) (l : Location) :
    place l ns = l ++ ns :=
  place_of_notMem (fun hup => (h _ hup).notUp rfl) l

/-- Below one path, file names lead to different locations if they are different. -/
theorem target_join (d : Disk) {p q : Path} (hq : q.isAbsolute = false)
    (hnames : ∀ n ∈ q.names, IsFileName n) : d.target (p.join q) = d.target p ++ q.names := by
  rw [target, target, start, start, Path.isAbsolute_join hq, Path.names_join hq, place_append,
    place_fileNames hnames]

/-! ## Walks -/

variable {d d' : Disk} {l : Location} {ns : List String} {s : Spot}

theorem spot_location (d : Disk) (l : Location) : (d.spot l).location = l := by
  rw [spot]
  split
  · rfl
  · split <;> rfl

/-- A folder is found where it was looked for. -/
theorem eq_of_spot_folder {l' : Location} (h : d.spot l = .folder l') : l' = l := by
  have hlocation := spot_location d l
  rwa [h] at hlocation

theorem walk_place (h : d.walk l ns = .ok s) : s.location = place l ns := by
  -- the walk goes through folders only, and is where the names say
  fun_induction d.walk l ns with
  | case1 l =>
    obtain rfl := Except.ok.inj h
    rfl
  | case2 l ns ih =>
    rw [place, if_pos rfl]
    exact ih h
  | case3 l n hn ns l' hspot ih =>
    rw [place, if_neg hn, ← eq_of_spot_folder hspot]
    exact ih h
  | case4 l n hn hspot =>
    rw [← Except.ok.inj h, place, if_neg hn, place]
    exact spot_location d _
  | case5 => exact nomatch h
  | case6 => exact nomatch h

/-- A walk that ends with something other than a folder ends with what is there. -/
theorem walk_spot (h : d.walk l ns = .ok s) : s = .folder (place l ns) ∨ d.spot s.location = s := by
  fun_induction d.walk l ns with
  | case1 l => exact Or.inl (Except.ok.inj h).symm
  | case2 l ns ih =>
    rw [place, if_pos rfl]
    exact ih h
  | case3 l n hn ns l' hspot ih =>
    rw [place, if_neg hn, ← eq_of_spot_folder hspot]
    exact ih h
  | case4 l n hn hspot =>
    right
    rw [← Except.ok.inj h, spot_location]
  | case5 => exact nomatch h
  | case6 => exact nomatch h

theorem walk_last {n : String} (hn : n ≠ "..") (l : Location) :
    d.walk l [n] = .ok (d.spot (l ++ [n])) := by
  cases hspot : d.spot (l ++ [n]) with
  | folder l' => rw [walk.eq_3 d l n [] l' hn hspot, walk]; rfl
  | file l' => rw [walk.eq_4 d l n hn (by rw [hspot]; exact fun _ => nofun), hspot]; rfl
  | vacant l' => rw [walk.eq_4 d l n hn (by rw [hspot]; exact fun _ => nofun), hspot]; rfl

/-- What a disk shows where a walk on another one has ended. A folder is still there. -/
def revisit (d : Disk) : Spot → Spot
  | .folder l => .folder l
  | .file l => d.spot l
  | .vacant l => d.spot l

theorem revisit_spot (d' : Disk) (h : d.spot l ≠ .folder l) : d'.revisit (d.spot l) = d'.spot l := by
  have hlocation := spot_location d l
  cases hs : d.spot l with
  | folder l' => exact absurd (eq_of_spot_folder hs ▸ hs) h
  | file l' =>
    rw [hs] at hlocation
    rw [revisit, ← hlocation, Spot.location]
  | vacant l' =>
    rw [hs] at hlocation
    rw [revisit, ← hlocation, Spot.location]

/-- A walk that succeeds does so again where all folders still are. It may find something else at its
end only. -/
theorem walk_again (hfolders : ∀ l, d.spot l = .folder l → d'.spot l = .folder l)
    (h : d.walk l ns = .ok s) : d'.walk l ns = .ok (d'.revisit s) := by
  fun_induction d.walk l ns with
  | case1 l =>
    obtain rfl := Except.ok.inj h
    rw [walk]
    rfl
  | case2 l ns ih =>
    rw [walk]
    exact ih h
  | case3 l n hn ns l' hspot ih =>
    obtain rfl := eq_of_spot_folder hspot
    rw [walk.eq_3 d' l n ns _ hn (hfolders _ hspot)]
    exact ih h
  | case4 l n hn hspot =>
    -- it was a file or nothing, and whatever is there now is what the walk finds
    rw [walk_last hn, ← Except.ok.inj h, revisit_spot d' (hspot _)]
  | case5 => exact nomatch h
  | case6 => exact nomatch h

end Disk

end DesignCompiler
