import PageQuery.Text.Blank
import PageQuery.Text.Alphanumeric
import PageQuery.Text.Identifier
import PageQuery.Text.Quoted
import PageQuery.Number.Numeral
import PageQuery.Json.Record
import PageQuery.Script.Token
import PageQuery.Script.Escape
import PageQuery.Script.Literal
import PageQuery.Script.Lexer
import PageQuery.Script.Nesting
import PageQuery.Script.Tree
import PageQuery.Script.Reader
import PageQuery.Script.Function
import PageQuery.Script.Expression
import PageQuery.Script.Statement
import PageQuery.Script.Source
import PageQuery.Query.Error
import PageQuery.Query.Shape
import PageQuery.Query.Chain
import PageQuery.Query.Condition
import PageQuery.Query.Selector
import PageQuery.Query.Clauses
import PageQuery.Query.Translation
import PageQuery.Field.Definition
import PageQuery.Field.ValuesList
import PageQuery.Field.NumberRange
import PageQuery.Field.OptionSource
import PageQuery.Field.QueryCache
import PageQuery.Field.Request
import PageQuery.Proofs.Collect
import PageQuery.Proofs.Shape
import PageQuery.Proofs.Predicate
import PageQuery.Proofs.Walk
import PageQuery.Proofs.StableSort
import PageQuery.Proofs.SortKeys
import PageQuery.Proofs.Selector
import PageQuery.Proofs.Lowering
import PageQuery.Proofs.Pipeline
import PageQuery.Proofs.OrderKept
import PageQuery.Proofs.Reading
import PageQuery.Proofs.Spelling
import PageQuery.Proofs.Rendering
import PageQuery.Proofs.Meaning
import PageQuery.Proofs.Lexing
import PageQuery.Proofs.Bounds
import PageQuery.Proofs.Projection
import PageQuery.Proofs.Extraction
import PageQuery.Proofs.Core
import PageQuery.Proofs.Callbacks
import PageQuery.Proofs.Parentheses
import PageQuery.Proofs.Caching
import PageQuery.Proofs.ByteOrderMark
import PageQuery.Proofs.Shortest
import PageQuery.Proofs.Positional
import PageQuery.Proofs.Quoting
import PageQuery.Proofs.Operands
import PageQuery.Proofs.Conjunction
import PageQuery.Proofs.Correspondence
import PageQuery.Proofs.Grouping
import PageQuery.Proofs.Renaming
import PageQuery.Proofs.Terms
import PageQuery.Proofs.Pieces
import PageQuery.Proofs.QueryTokens
import PageQuery.Proofs.Recovery
import PageQuery.Proofs.Brackets
import PageQuery.Proofs.FieldPaths
import PageQuery.Proofs.Rounding
import PageQuery.Proofs.Numerals
import PageQuery.Proofs.Limits
import PageQuery.Proofs.ShortestForm
import PageQuery.Proofs.NumberTexts
import PageQuery.Proofs.Sums
import PageQuery.Proofs.Ranges
import PageQuery.Proofs.IntegerRanges
import PageQuery.Proofs.ValueOrder
import PageQuery.Proofs.FieldSources
import PageQuery.Proofs.Running
import PageQuery.Proofs.Words
import PageQuery.Proofs.Phrases
import PageQuery.Proofs.Placement
import PageQuery.Proofs.SortDirections
import PageQuery.Proofs.Cutting
import PageQuery.Proofs.Stretches
import PageQuery.Proofs.Excerpts
import PageQuery.Proofs.Likeness
import PageQuery.Proofs.RereadFunctions
import PageQuery.Proofs.RereadExpressions
import PageQuery.Proofs.RereadStatements
import PageQuery.Proofs.Heads
import PageQuery.Proofs.Slices
import PageQuery.Proofs.WithoutNodes
