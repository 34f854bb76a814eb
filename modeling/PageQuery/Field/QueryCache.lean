import PageQuery.Query.Translation

/-!
Queries remembered by field.  An entry serves as long as its field asks for the same text in the same
dialect; a text that cannot be lowered is remembered as well.
-/

namespace PageQuery

structure CachedQuery where
  text : String
  dialect : Dialect
  query : Option String

/-- at most one entry for a field -/
structure QueryCache where
  entries : List (String × CachedQuery) := []

namespace QueryCache

def get? (c : QueryCache) (field : String) : Option CachedQuery := c.entries.lookup field

/-- the cache without the field's entry -/
def erase (c : QueryCache) (field : String) : QueryCache :=
  ⟨c.entries.filter fun e => e.1 != field⟩

/-- the cache with this entry for the field -/
def insert (c : QueryCache) (field : String) (q : CachedQuery) : QueryCache :=
  ⟨(field, q) :: (c.erase field).entries⟩

/-- the query for a field, lowered now if the cache does not have it -/
def getOrTranslate (c : QueryCache) (field text : String) (d : Dialect) :
    Option String × QueryCache :=
  let translated := fun _ : Unit =>
    let query := Translation.query? text d
    (query, c.insert field ⟨text, d, query⟩)
  match c.get? field with
  | some q => if q.text == text && q.dialect == d then (q.query, c) else translated ()
  | none => translated ()

/-- drops the field's entry, and tells whether there was one -/
def invalidate (c : QueryCache) (field : String) : Bool × QueryCache :=
  ((c.get? field).isSome, c.erase field)

def clear (_ : QueryCache) : QueryCache := {}

def size (c : QueryCache) : Nat := c.entries.length

def isEmpty (c : QueryCache) : Bool := c.entries.isEmpty

end QueryCache

end PageQuery
